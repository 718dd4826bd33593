import Swbis.Lib.Linked
import Swbis.Lib.Outcome
import Swbis.Misc.Swverid

/-!
# The list of version ids

A specification keeps its version ids in a linked list that is edited in place.
`swverid_add_verid_if` adds a copy of an id if the list has none with its
letter; `swverid_replace_verid` adds a copy or puts it in the place of the one
that is there.  Both first cut the list off behind the caller's node, should
that node be in the list.

The heap holds the nodes of the list and those of the caller.  What a call does
to the list, as a list of ids, is `replaceIn` after `cut` (`iReplaceVerid_spec`).
-/

namespace Swbis.Misc

open CLib

/-! ## The code -/

/-- The nodes that were allocated, and `ver_id_listM`. -/
structure VeridState where
  heap : Heap VerId
  /-- The first node of the list. -/
  verIdList : Option Nat
deriving DecidableEq

/-- `get_ver_id_char_from_this` -/
def getVerIdCharFromThis (this : VerId) : UInt8 :=
  if 1 < this.verId.length then (this.verId.drop 1).headD 0 else this.verId.headD 0

/-- `copy_construct_version_id`: the copy, or null. -/
def copyConstruct (s : VeridState) (verId : Nat) : Outcome (VeridState × Option Nat) :=
  match s.heap[verId]? with
  | none => .fault
  | some node =>
      match copyConstructVersionId node.val with
      | none => .returned (s, none)
      | some copy => .returned ({ s with heap := s.heap.alloc copy }, some s.heap.length)

/-- The loop of `swverid_add_verid`: the last node. -/
def lastNode (heap : Heap VerId) : Nat → Nat → Outcome Nat
  | 0, _ => .outOfFuel
  | fuel + 1, last =>
      match heap[last]? with
      | none => .fault
      | some node =>
          match node.next with
          | none => .returned last
          | some next => lastNode heap fuel next

/-- `swverid_add_verid` -/
def swveridAddVerid (s : VeridState) (verid : Option Nat) : Outcome VeridState :=
  let heap := match verid with
    | none => s.heap
    | some a => s.heap.setNext a none
  match s.verIdList with
  | none => .returned { heap := heap, verIdList := verid }
  | some first => do
      let prev ← lastNode heap (heap.length + 1) first
      .returned { s with heap := heap.setNext prev verid }

/-- The loop of `i_replace_verid`, and what follows it. -/
def replaceLoop (verid : Nat) (newId : UInt8) (doReplace : Bool) (s : VeridState) :
    Nat → Option Nat → Option Nat → Outcome VeridState
  | 0, _, _ => .outOfFuel
  | _ + 1, _, none => do
      let (s, newverid) ← copyConstruct s verid
      swveridAddVerid s newverid
  | fuel + 1, prev, some last =>
      match s.heap[last]? with
      | none => .fault
      | some node =>
          if getVerIdCharFromThis node.val = newId ∧ doReplace then do
            let (s, newverid) ← copyConstruct s verid
            -- The head of the list is not set when there is no node before.
            let heap := match prev with
              | none => s.heap
              | some a => s.heap.setNext a newverid
            match newverid with
            | none => .fault
            | some a =>
                let next := (heap[last]?.map Node.next).getD none
                .returned { s with heap := heap.setNext a next }
          else if getVerIdCharFromThis node.val = newId ∧ doReplace = false then .returned s
          else replaceLoop verid newId doReplace s fuel (some last) node.next

/-- `i_replace_verid` -/
def iReplaceVerid (s : VeridState) (verid : Nat) (doReplace : Bool) : Outcome VeridState :=
  match s.heap[verid]? with
  | none => .fault
  | some node =>
      -- An empty list is the loop that ends at once.
      let heap := s.heap.setNext verid none
      let newId := getVerIdCharFromThis node.val
      replaceLoop verid newId doReplace { s with heap := heap } (heap.length + 1) none s.verIdList

/-- `swverid_add_verid_if` -/
def swveridAddVeridIf (s : VeridState) (verid : Nat) : Outcome VeridState := iReplaceVerid s verid false

/-- `swverid_replace_verid` -/
def swveridReplaceVerid (s : VeridState) (verid : Nat) : Outcome VeridState := iReplaceVerid s verid true

/-! ## What a call does to the list -/

/-- The list up to the node `a`, if it is in the list. -/
def cutBehind (a : Nat) : List (Nat × VerId) → List (Nat × VerId)
  | [] => []
  | x :: l => if x.1 = a then [x] else x :: cutBehind a l

/-- The ids behind the head, after a call. -/
def replaceBehind (newId : UInt8) (doReplace : Bool) (copy : VerId) : List VerId → List VerId
  | [] => [copy]
  | y :: ids =>
      if getVerIdCharFromThis y = newId then (if doReplace then copy :: ids else y :: ids)
      else y :: replaceBehind newId doReplace copy ids

/-- The ids after a call: one at the head stays. -/
def replaceIn (newId : UInt8) (doReplace : Bool) (copy : VerId) : List VerId → List VerId
  | [] => [copy]
  | y :: ids =>
      if getVerIdCharFromThis y = newId then y :: ids
      else y :: replaceBehind newId doReplace copy ids

theorem cutBehind_cases (a : Nat) (l : List (Nat × VerId)) :
    a ∉ l.map Prod.fst ∧ cutBehind a l = l ∨
      ∃ l₁ v l₂, l = l₁ ++ (a, v) :: l₂ ∧ a ∉ l₁.map Prod.fst ∧ cutBehind a l = l₁ ++ [(a, v)] := by
  induction l with
  | nil => exact .inl ⟨by simp, rfl⟩
  | cons x l ih =>
      obtain ⟨b, w⟩ := x
      rw [cutBehind]
      by_cases hb : b = a
      · subst hb
        exact .inr ⟨[], w, l, rfl, by simp, if_pos rfl⟩
      · rw [if_neg hb]
        rcases ih with ⟨hmem, hcut⟩ | ⟨l₁, v, l₂, rfl, hmem, hcut⟩
        · refine .inl ⟨?_, by rw [hcut]⟩
          rw [List.map_cons, List.mem_cons, not_or]
          exact ⟨fun h => hb h.symm, hmem⟩
        · refine .inr ⟨(b, w) :: l₁, v, l₂, rfl, ?_, by rw [hcut]; rfl⟩
          rw [List.map_cons, List.mem_cons, not_or]
          exact ⟨fun h => hb h.symm, hmem⟩

/-- Clearing the pointer of a node cuts the list behind it. -/
theorem seg_cutBehind {h : Heap VerId} {p : Option Nat} {l : List (Nat × VerId)}
    (hs : Seg h p l none) (a : Nat) : Seg (h.setNext a none) p (cutBehind a l) none := by
  rcases cutBehind_cases a l with ⟨hmem, hcut⟩ | ⟨l₁, v, l₂, rfl, hmem, hcut⟩
  · rw [hcut]
    exact hs.setNext_of_not_mem hmem none
  · rw [hcut]
    obtain ⟨b, h₁, h₂⟩ := Seg.append_iff.mp hs
    obtain ⟨rfl, next, hget, -⟩ := Seg.cons_iff.mp h₂
    exact (Seg.append_iff.mpr ⟨some a, h₁, .cons hget (.nil next)⟩).setNext_last hmem none

theorem lastNode_eq {h : Heap VerId} {l : List (Nat × VerId)} {first b : Nat} {v : VerId}
    (hs : Seg h (some first) (l ++ [(b, v)]) none) {fuel : Nat} (hfuel : l.length < fuel) :
    lastNode h fuel first = .returned b := by
  induction l generalizing first fuel with
  | nil =>
      obtain ⟨he, next, hget, hnext⟩ := Seg.cons_iff.mp hs
      cases he
      cases hnext
      cases fuel with
      | zero => simp at hfuel
      | succ fuel => simp [lastNode, hget]
  | cons x l ih =>
      obtain ⟨c, w⟩ := x
      obtain ⟨he, next, hget, hnext⟩ := Seg.cons_iff.mp hs
      cases he
      cases fuel with
      | zero => simp at hfuel
      | succ fuel =>
          cases hn : next with
          | none =>
              rw [hn] at hnext
              cases l with
              | nil => cases (Seg.cons_iff.mp hnext).1
              | cons y l => cases (Seg.cons_iff.mp hnext).1
          | some n =>
              rw [hn] at hnext hget
              rw [lastNode, hget]
              exact ih hnext (by simpa using hfuel)

/-- Adding a node puts it at the end. -/
theorem swveridAddVerid_spec {s : VeridState} {l : List (Nat × VerId)} {k : Nat} {c : VerId}
    (hs : Seg s.heap s.verIdList l none) (hk : k ∉ l.map Prod.fst) (hget : s.heap[k]? = some ⟨c, none⟩) :
    ∃ s', swveridAddVerid s (some k) = .returned s' ∧
      Seg s'.heap s'.verIdList (l ++ [(k, c)]) none ∧
      s'.heap.map Node.val = s.heap.map Node.val := by
  have hget' : (s.heap.setNext k none)[k]? = some ⟨c, none⟩ := by
    rw [Heap.getElem?_setNext_self, hget]
    rfl
  have hs' := hs.setNext_of_not_mem hk none
  rcases List.eq_nil_or_concat l with rfl | ⟨l', ⟨b, v⟩, rfl⟩
  · have hnull := Seg.nil_iff.mp hs
    refine ⟨{ heap := s.heap.setNext k none, verIdList := some k }, ?_, .cons hget' (.nil none), ?_⟩
    · rw [swveridAddVerid, hnull]
    · exact Heap.map_val_setNext _ _ _
  · rw [List.concat_eq_append] at hs hs' hk ⊢
    cases hfirst : s.verIdList with
    | none =>
        rw [hfirst] at hs
        cases l' with
        | nil => cases (Seg.cons_iff.mp hs).1
        | cons y l' => cases (Seg.cons_iff.mp hs).1
    | some first =>
        rw [hfirst] at hs'
        have hfuel : l'.length < (s.heap.setNext k none).length + 1 := by
          have hle := hs'.length_le
          simp only [List.length_append, List.length_cons] at hle
          omega
        have hlast := lastNode_eq hs' hfuel
        have hb : b ∉ l'.map Prod.fst := hs'.not_mem_of_append.1
        refine ⟨{ heap := (s.heap.setNext k none).setNext b (some k), verIdList := some first }, ?_, ?_, ?_⟩
        · simp only [swveridAddVerid, hfirst, hlast, Outcome.returned_bind]
        · have hbk : b ≠ k := by
            rintro rfl
            simp at hk
          have hnew : ((s.heap.setNext k none).setNext b (some k))[k]? = some ⟨c, none⟩ := by
            rw [Heap.getElem?_setNext_of_ne _ hbk, hget']
          exact Seg.append_iff.mpr ⟨some k, hs'.setNext_last hb (some k), .cons hnew (.nil none)⟩
        · simp

/-- The end of the loop: the copy is added. -/
theorem copyConstruct_add {s : VeridState} {l : List (Nat × VerId)} {verid : Nat} {x c : VerId}
    {nx : Option Nat} (hs : Seg s.heap s.verIdList l none) (hx : s.heap[verid]? = some ⟨x, nx⟩)
    (hc : copyConstructVersionId x = some c) :
    ∃ s' l', (do
        let (s, newverid) ← copyConstruct s verid
        swveridAddVerid s newverid) = .returned s' ∧
      Seg s'.heap s'.verIdList l' none ∧ l'.map Prod.snd = l.map Prod.snd ++ [c] ∧
      s'.heap.map Node.val = s.heap.map Node.val ++ [c] := by
  have hfresh : s.heap.length ∉ l.map Prod.fst := fun h => Nat.lt_irrefl _ (hs.lt_length _ h)
  obtain ⟨s', hadd, hs', hvals⟩ := swveridAddVerid_spec (s := { s with heap := s.heap.alloc c })
    (hs.alloc c) hfresh (s.heap.getElem?_alloc_self c)
  refine ⟨s', _, ?_, hs', by simp, by simpa using hvals⟩
  simp only [copyConstruct, hx, hc, Outcome.returned_bind, hadd]

/-- The loop over the list. -/
theorem replaceLoop_spec {verid : Nat} {newId : UInt8} {doReplace : Bool} {s : VeridState}
    {x c : VerId} {nx : Option Nat} (hx : s.heap[verid]? = some ⟨x, nx⟩)
    (hc : copyConstructVersionId x = some c) {rest : List (Nat × VerId)} :
    ∀ {done : List (Nat × VerId)} {last : Option Nat} {fuel : Nat},
      Seg s.heap s.verIdList (done ++ rest) none → Seg s.heap last rest none → rest.length < fuel →
      ∃ s' l', replaceLoop verid newId doReplace s fuel (done.getLast?.map Prod.fst) last = .returned s' ∧
        Seg s'.heap s'.verIdList l' none ∧
        l'.map Prod.snd = done.map Prod.snd ++
          (if done = [] then replaceIn newId doReplace c (rest.map Prod.snd)
            else replaceBehind newId doReplace c (rest.map Prod.snd)) ∧
        (s'.heap.map Node.val = s.heap.map Node.val ∨
          s'.heap.map Node.val = s.heap.map Node.val ++ [c]) := by
  induction rest with
  | nil =>
      intro done last fuel hs hlast hfuel
      rw [Seg.nil_iff.mp hlast]
      obtain ⟨s', l', hadd, hs', hids, hvals⟩ := copyConstruct_add hs hx hc
      cases fuel with
      | zero => simp at hfuel
      | succ fuel =>
          refine ⟨s', l', hadd, hs', ?_, .inr hvals⟩
          rw [hids, List.append_nil]
          split <;> rfl
  | cons y rest ih =>
      obtain ⟨b, w⟩ := y
      intro done last fuel hs hlast hfuel
      obtain ⟨rfl, next, hget, hnext⟩ := Seg.cons_iff.mp hlast
      cases fuel with
      | zero => simp at hfuel
      | succ fuel =>
          rw [replaceLoop, hget]
          dsimp only
          by_cases hid : getVerIdCharFromThis w = newId
          · cases doReplace with
            | true =>
                rw [if_pos ⟨hid, rfl⟩]
                have hb : b < s.heap.length := (List.getElem?_eq_some_iff.mp hget).1
                have hgetb : (s.heap.alloc c)[b]? = some ⟨w, next⟩ := by
                  rw [Heap.getElem?_alloc_of_lt _ _ hb, hget]
                rcases List.eq_nil_or_concat done with rfl | ⟨done, ⟨p, z⟩, rfl⟩
                · have hfresh : s.heap.length ∉ ((b, w) :: rest).map Prod.fst :=
                    fun h => Nat.lt_irrefl _ (hs.lt_length _ h)
                  refine ⟨{ s with heap := (s.heap.alloc c).setNext s.heap.length next }, _, ?_,
                    (hs.alloc c).setNext_of_not_mem hfresh next, ?_, .inr (by simp)⟩
                  · simp [copyConstruct, hx, hc, hgetb]
                  · simp [replaceIn, hid]
                · rw [List.concat_eq_append] at hs ⊢
                  have hpb : p ≠ b := by
                    have hmem := hs.not_mem_of_append.1
                    rintro rfl
                    simp at hmem
                  refine ⟨{ s with
                    heap := ((s.heap.alloc c).setNext p (some s.heap.length)).setNext s.heap.length next },
                    _, ?_, hs.replace hget c, ?_, .inr (by simp)⟩
                  · simp [copyConstruct, hx, hc, hgetb, Heap.getElem?_setNext_of_ne _ hpb]
                  · simp [replaceBehind, hid]
            | false =>
                rw [if_neg (by simp), if_pos ⟨hid, rfl⟩]
                refine ⟨s, _, rfl, hs, ?_, .inl rfl⟩
                simp [replaceIn, replaceBehind, hid]
          · rw [if_neg fun h => hid h.1, if_neg fun h => hid h.1]
            have hs' : Seg s.heap s.verIdList ((done ++ [(b, w)]) ++ rest) none := by
              rwa [List.append_assoc, List.singleton_append]
            obtain ⟨s', l', hloop, hseg, hids, hvals⟩ := ih hs' hnext (Nat.lt_of_succ_lt_succ hfuel)
            rw [List.getLast?_concat] at hloop
            refine ⟨s', l', hloop, hseg, ?_, hvals⟩
            rw [hids, if_neg (by simp), List.map_append, List.append_assoc]
            split
            next hd => simp [hd, replaceIn, hid]
            next => simp [replaceBehind, hid]

/-- What a call does to the list. -/
theorem iReplaceVerid_spec {s : VeridState} {l : List (Nat × VerId)} {verid : Nat} {x c : VerId}
    {nx : Option Nat} (hs : Seg s.heap s.verIdList l none) (hx : s.heap[verid]? = some ⟨x, nx⟩)
    (hc : copyConstructVersionId x = some c) (doReplace : Bool) :
    ∃ s' l', iReplaceVerid s verid doReplace = .returned s' ∧
      Seg s'.heap s'.verIdList l' none ∧
      l'.map Prod.snd =
        replaceIn (getVerIdCharFromThis x) doReplace c ((cutBehind verid l).map Prod.snd) ∧
      (s'.heap.map Node.val = s.heap.map Node.val ∨
        s'.heap.map Node.val = s.heap.map Node.val ++ [c]) := by
  have hcut := seg_cutBehind hs verid
  have hx' : (s.heap.setNext verid none)[verid]? = some ⟨x, none⟩ := by
    rw [Heap.getElem?_setNext_self, hx]
    rfl
  obtain ⟨s', l', hloop, hs', hids, hvals⟩ :=
    @replaceLoop_spec verid (getVerIdCharFromThis x) doReplace
      { s with heap := s.heap.setNext verid none } x c none hx' hc (cutBehind verid l) []
      s.verIdList _ hcut hcut (Nat.lt_succ_of_le hcut.length_le)
  refine ⟨s', l', ?_, hs', by simpa using hids, by simpa using hvals⟩
  rw [iReplaceVerid, hx]
  exact hloop

/-! ## Letters -/

/-- The letters of the ids. -/
def letters (ids : List VerId) : List UInt8 := ids.map getVerIdCharFromThis

section

variable {newId : UInt8} {doReplace : Bool} {c : VerId}

theorem mem_letters_cons_of_eq {y : VerId} (hy : getVerIdCharFromThis y = newId) (ids : List VerId) :
    newId ∈ letters (y :: ids) := by
  rw [letters, List.map_cons, hy]
  exact List.mem_cons_self

theorem mem_letters_cons_of_ne {y : VerId} (hy : getVerIdCharFromThis y ≠ newId) (ids : List VerId) :
    newId ∈ letters (y :: ids) ↔ newId ∈ letters ids := by
  rw [letters, List.map_cons, List.mem_cons]
  exact or_iff_right (Ne.symm hy)

theorem letters_replaceBehind (hc : getVerIdCharFromThis c = newId) (ids : List VerId) :
    letters (replaceBehind newId doReplace c ids) =
      if newId ∈ letters ids then letters ids else letters ids ++ [newId] := by
  induction ids with
  | nil => simp [replaceBehind, letters, hc]
  | cons y ids ih =>
      rw [replaceBehind]
      by_cases hy : getVerIdCharFromThis y = newId
      · rw [if_pos hy]
        have hmem := mem_letters_cons_of_eq hy ids
        cases doReplace with
        | true =>
            rw [if_pos hmem, if_pos rfl, letters, letters, List.map_cons, List.map_cons, hc, hy]
        | false => rw [if_pos hmem, if_neg Bool.false_ne_true]
      · simp only [if_neg hy, mem_letters_cons_of_ne hy]
        rw [letters, List.map_cons, ← letters, ih]
        split
        next => rfl
        next => rfl

theorem letters_replaceIn (hc : getVerIdCharFromThis c = newId) (ids : List VerId) :
    letters (replaceIn newId doReplace c ids) =
      if newId ∈ letters ids then letters ids else letters ids ++ [newId] := by
  cases ids with
  | nil => simp [replaceIn, letters, hc]
  | cons y ids =>
      rw [replaceIn]
      by_cases hy : getVerIdCharFromThis y = newId
      · rw [if_pos hy, if_pos (mem_letters_cons_of_eq hy ids)]
      · rw [if_neg hy, ← letters_replaceBehind hc (y :: ids), replaceBehind, if_neg hy]

/-- A call gives no letter twice. -/
theorem nodup_replaceIn (hc : getVerIdCharFromThis c = newId) {ids : List VerId}
    (h : (letters ids).Nodup) : (letters (replaceIn newId doReplace c ids)).Nodup := by
  rw [letters_replaceIn hc]
  split
  next => exact h
  next hmem =>
    refine List.nodup_append.mpr ⟨h, List.nodup_singleton _, fun a ha b hb he => hmem ?_⟩
    rw [← List.mem_singleton.mp hb, ← he]
    exact ha

/-- The ids with other letters are kept in order. -/
theorem filter_replaceIn (hc : getVerIdCharFromThis c = newId) (ids : List VerId) :
    (replaceIn newId doReplace c ids).filter (fun y => getVerIdCharFromThis y != newId) =
      ids.filter fun y => getVerIdCharFromThis y != newId := by
  have hbehind : ∀ ids, (replaceBehind newId doReplace c ids).filter
      (fun y => getVerIdCharFromThis y != newId) = ids.filter fun y => getVerIdCharFromThis y != newId := by
    intro ids
    induction ids with
    | nil => simp [replaceBehind, hc]
    | cons y ids ih =>
        rw [replaceBehind]
        by_cases hy : getVerIdCharFromThis y = newId
        · rw [if_pos hy]
          cases doReplace with
          | true => simp [hc, hy]
          | false => rfl
        · rw [if_neg hy, List.filter_cons, List.filter_cons, ih]
  cases ids with
  | nil => simp [replaceIn, hc]
  | cons y ids =>
      rw [replaceIn]
      split
      next => rfl
      next => rw [List.filter_cons, List.filter_cons, hbehind]

/-- Adding keeps a list that has the letter. -/
theorem replaceIn_false (ids : List VerId) :
    replaceIn newId false c ids = if newId ∈ letters ids then ids else ids ++ [c] := by
  have hbehind : ∀ ids, replaceBehind newId false c ids =
      if newId ∈ letters ids then ids else ids ++ [c] := by
    intro ids
    induction ids with
    | nil => simp [replaceBehind, letters]
    | cons y ids ih =>
        rw [replaceBehind]
        by_cases hy : getVerIdCharFromThis y = newId
        · rw [if_pos hy, if_pos (mem_letters_cons_of_eq hy ids), if_neg Bool.false_ne_true]
        · simp only [if_neg hy, mem_letters_cons_of_ne hy, ih]
          split
          next => rfl
          next => rfl
  cases ids with
  | nil => simp [replaceIn, letters]
  | cons y ids =>
      rw [replaceIn, ← hbehind (y :: ids), replaceBehind]
      rfl

/-- The id with the letter, after a replacement: the one at the head, or the copy. -/
def heldAfter (newId : UInt8) (c : VerId) (ids : List VerId) : VerId :=
  match ids.head? with
  | none => c
  | some y => if getVerIdCharFromThis y = newId then y else c

theorem mem_replaceIn_letter (hc : getVerIdCharFromThis c = newId) {ids : List VerId}
    (h : (letters ids).Nodup) (y : VerId) :
    y ∈ replaceIn newId true c ids ∧ getVerIdCharFromThis y = newId ↔ y = heldAfter newId c ids := by
  have hbehind : ∀ {ids}, (letters ids).Nodup → ∀ y,
      (y ∈ replaceBehind newId true c ids ∧ getVerIdCharFromThis y = newId ↔ y = c) := by
    intro ids
    induction ids with
    | nil =>
        intro _ y
        constructor
        · rintro ⟨hy, -⟩
          exact List.mem_singleton.mp hy
        · rintro rfl
          exact ⟨List.mem_singleton_self y, hc⟩
    | cons z ids ih =>
        intro hnodup y
        obtain ⟨hz, hrest⟩ := List.nodup_cons.mp hnodup
        rw [replaceBehind]
        by_cases hzid : getVerIdCharFromThis z = newId
        · rw [if_pos hzid, if_pos rfl]
          constructor
          · rintro ⟨hy, hyid⟩
            rcases List.mem_cons.mp hy with rfl | hy
            · rfl
            · exact absurd (hzid ▸ hyid ▸ List.mem_map_of_mem hy) hz
          · rintro rfl
            exact ⟨List.mem_cons_self, hc⟩
        · rw [if_neg hzid, ← ih hrest y, List.mem_cons]
          constructor
          · rintro ⟨rfl | hy, hyid⟩
            · exact absurd hyid hzid
            · exact ⟨hy, hyid⟩
          · rintro ⟨hy, hyid⟩
            exact ⟨.inr hy, hyid⟩
  cases ids with
  | nil =>
      have hnil : (letters []).Nodup := List.nodup_nil
      exact hbehind hnil y
  | cons z ids =>
      obtain ⟨hz, hrest⟩ := List.nodup_cons.mp h
      rw [heldAfter, List.head?_cons, replaceIn]
      dsimp only
      by_cases hzid : getVerIdCharFromThis z = newId
      · rw [if_pos hzid, if_pos hzid]
        constructor
        · rintro ⟨hy, hyid⟩
          rcases List.mem_cons.mp hy with rfl | hy
          · rfl
          · exact absurd (hzid ▸ hyid ▸ List.mem_map_of_mem hy) hz
        · rintro rfl
          exact ⟨List.mem_cons_self, hzid⟩
      · rw [if_neg hzid, if_neg hzid, ← hbehind h y, replaceBehind, if_neg hzid]

end

/-! ## Runs -/

/-- What the caller of the list does. -/
inductive VeridCall where
  /-- `swverid_create_version_id`: a node of the caller, if the text is accepted. -/
  | create (versionIdString : Bytes)
  /-- `swverid_add_verid_if` -/
  | addIf (verid : Nat)
  /-- `swverid_replace_verid` -/
  | replace (verid : Nat)
deriving DecidableEq

namespace VeridState

/-- No nodes, and the empty list. -/
def empty : VeridState := ⟨[], none⟩

/-- One call. -/
def step (s : VeridState) : VeridCall → Outcome VeridState
  | .create t =>
      match createVersionId t with
      | none => .returned s
      | some v => .returned { s with heap := s.heap.alloc v }
  | .addIf verid => swveridAddVeridIf s verid
  | .replace verid => swveridReplaceVerid s verid

/-- Call after call. -/
def run (s : VeridState) (calls : List VeridCall) : Outcome VeridState := calls.foldlM step s

/-- The ids of the list, with the addresses of their nodes. -/
def Holds (s : VeridState) (l : List (Nat × VerId)) : Prop := Seg s.heap s.verIdList l none

/-- What holds in every state: the list ends, every node was created from a text, and no two ids
of the list have the same letter. -/
structure Inv (s : VeridState) (l : List (Nat × VerId)) : Prop where
  holds : s.Holds l
  created : ∀ v ∈ s.heap.map Node.val, ∃ t, createVersionId t = some v
  nodup : (letters (l.map Prod.snd)).Nodup

end VeridState

theorem copyConstructVersionId_of_created {t : Bytes} {x : VerId} (h : createVersionId t = some x) :
    copyConstructVersionId x = some { x with value := storedValue x.id x.value } :=
  (formed_of_createVersionId h).createVersionId_text

theorem cutBehind_initial (a : Nat) (l : List (Nat × VerId)) : cutBehind a l <+: l := by
  rcases cutBehind_cases a l with ⟨-, hcut⟩ | ⟨l₁, v, l₂, rfl, -, hcut⟩
  · exact ⟨[], by rw [hcut, List.append_nil]⟩
  · rw [hcut]
    exact ⟨l₂, by simp⟩

namespace VeridState.Inv

variable {s : VeridState} {l : List (Nat × VerId)}

/-- A call keeps the invariant, and does to the list what `replaceIn` does. -/
theorem iReplaceVerid (h : s.Inv l) {verid : Nat} {x : VerId}
    (hx : s.heap[verid]?.map Node.val = some x) (doReplace : Bool) :
    ∃ s' l', Swbis.Misc.iReplaceVerid s verid doReplace = .returned s' ∧ s'.Inv l' ∧
      l'.map Prod.snd = replaceIn (getVerIdCharFromThis x) doReplace
        { x with value := storedValue x.id x.value } ((cutBehind verid l).map Prod.snd) := by
  obtain ⟨⟨_, nx⟩, hget, rfl⟩ := Option.map_eq_some_iff.mp hx
  obtain ⟨t, ht⟩ := h.created _ (List.mem_map_of_mem (List.mem_of_getElem? hget))
  have hcopy := copyConstructVersionId_of_created ht
  obtain ⟨s', l', hcall, hseg, hids, hvals⟩ := iReplaceVerid_spec h.holds hget hcopy doReplace
  refine ⟨s', l', hcall, ⟨hseg, ?_, ?_⟩, hids⟩
  · intro v hv
    rcases hvals with hvals | hvals
    · rw [hvals] at hv
      exact h.created v hv
    · rw [hvals] at hv
      rcases List.mem_append.mp hv with hv | hv
      · exact h.created v hv
      · rw [List.mem_singleton.mp hv]
        exact ⟨_, hcopy⟩
  · rw [hids]
    refine nodup_replaceIn rfl (h.nodup.sublist ?_)
    exact (((cutBehind_initial verid l).sublist.map _).map _)

/-- Every call keeps the invariant. -/
theorem step (h : s.Inv l) {call : VeridCall} {s' : VeridState} (hstep : s.step call = .returned s') :
    ∃ l', s'.Inv l' := by
  have hcall : ∀ verid doReplace, Swbis.Misc.iReplaceVerid s verid doReplace = .returned s' →
      ∃ l', s'.Inv l' := by
    intro verid doReplace hreturn
    cases hget : s.heap[verid]? with
    | none =>
        rw [Swbis.Misc.iReplaceVerid, hget] at hreturn
        cases hreturn
    | some node =>
        have hval : s.heap[verid]?.map Node.val = some node.val := by
          rw [hget]
          rfl
        obtain ⟨s'', l', hreturn', hinv, -⟩ := h.iReplaceVerid hval doReplace
        rw [hreturn] at hreturn'
        cases hreturn'
        exact ⟨l', hinv⟩
  cases call with
  | create t =>
      rw [VeridState.step] at hstep
      split at hstep
      next =>
        cases hstep
        exact ⟨l, h⟩
      next v hv =>
        cases hstep
        refine ⟨l, h.holds.alloc v, fun w hw => ?_, h.nodup⟩
        rw [Heap.map_val_alloc] at hw
        rcases List.mem_append.mp hw with hw | hw
        · exact h.created w hw
        · exact ⟨t, List.mem_singleton.mp hw ▸ hv⟩
  | addIf verid => exact hcall verid false hstep
  | replace verid => exact hcall verid true hstep

/-- Every run keeps the invariant. -/
theorem run (h : s.Inv l) {calls : List VeridCall} {s' : VeridState}
    (hrun : s.run calls = .returned s') : ∃ l', s'.Inv l' := by
  induction calls generalizing s l with
  | nil =>
      cases hrun
      exact ⟨l, h⟩
  | cons call calls ih =>
      rw [VeridState.run, List.foldlM_cons] at hrun
      obtain ⟨s'', hstep, hrest⟩ := Outcome.bind_eq_returned.mp hrun
      obtain ⟨l'', h''⟩ := h.step hstep
      exact ih h'' hrest

end VeridState.Inv

/-! ## What the calls promise -/

/-- The id with the letter of `x` has its operator and value, and the others are kept in order. -/
def ReplacedBy (x : VerId) (ids ids' : List VerId) : Prop :=
  (∃ y ∈ ids', getVerIdCharFromThis y = getVerIdCharFromThis x) ∧
    (∀ y ∈ ids', getVerIdCharFromThis y = getVerIdCharFromThis x →
      y.relOp = x.relOp ∧ y.value = x.value) ∧
    ids'.filter (fun y => getVerIdCharFromThis y != getVerIdCharFromThis x) =
      ids.filter fun y => getVerIdCharFromThis y != getVerIdCharFromThis x

/-- An id with the letter of `x` is unchanged, and the others are kept in order. -/
def AddedIf (x : VerId) (ids ids' : List VerId) : Prop :=
  (getVerIdCharFromThis x ∈ letters ids →
      ids'.filter (fun y => getVerIdCharFromThis y == getVerIdCharFromThis x) =
        ids.filter fun y => getVerIdCharFromThis y == getVerIdCharFromThis x) ∧
    ids'.filter (fun y => getVerIdCharFromThis y != getVerIdCharFromThis x) =
      ids.filter fun y => getVerIdCharFromThis y != getVerIdCharFromThis x

/-- If the node of the caller is in the list, it is the last one. -/
def NothingBehind (verid : Nat) (l : List (Nat × VerId)) : Prop :=
  ∀ l₁ v l₂, l = l₁ ++ (verid, v) :: l₂ → l₂ = []

/-- The id at the head is not the one to replace, or agrees with it; and if the copy goes into the
list, the value is stored again as it is. -/
def ReplaceOk (x : VerId) (ids : List VerId) : Prop :=
  (∀ y ∈ ids.head?, getVerIdCharFromThis y = getVerIdCharFromThis x →
      y.relOp = x.relOp ∧ y.value = x.value) ∧
    ((∀ y ∈ ids.head?, getVerIdCharFromThis y ≠ getVerIdCharFromThis x) →
      ¬LocationSlash x.id x.value)

/-- The id that has the letter of `x` after a replacement, and when it agrees with `x`. -/
theorem replaceOk_iff {x c : VerId} (hc : getVerIdCharFromThis c = getVerIdCharFromThis x)
    (hop : c.relOp = x.relOp) (hvalue : c.value = x.value ↔ ¬LocationSlash x.id x.value)
    {ids : List VerId} (h : (letters ids).Nodup) :
    ((∃ y ∈ replaceIn (getVerIdCharFromThis x) true c ids,
        getVerIdCharFromThis y = getVerIdCharFromThis x) ∧
      ∀ y ∈ replaceIn (getVerIdCharFromThis x) true c ids,
        getVerIdCharFromThis y = getVerIdCharFromThis x → y.relOp = x.relOp ∧ y.value = x.value) ↔
      ReplaceOk x ids := by
  have hmem := mem_replaceIn_letter hc h
  have hheld : ReplaceOk x ids ↔ (heldAfter (getVerIdCharFromThis x) c ids).relOp = x.relOp ∧
      (heldAfter (getVerIdCharFromThis x) c ids).value = x.value := by
    rw [ReplaceOk, heldAfter]
    cases ids.head? with
    | none => simp [hop, hvalue]
    | some y =>
        by_cases hy : getVerIdCharFromThis y = getVerIdCharFromThis x
        · simp [hy]
        · simp [hy, hop, hvalue]
  rw [hheld]
  constructor
  · rintro ⟨-, hall⟩
    obtain ⟨hin, hid⟩ := (hmem _).mpr rfl
    exact hall _ hin hid
  · intro hagree
    refine ⟨⟨_, (hmem _).mpr rfl⟩, fun y hy hid => ?_⟩
    rw [(hmem y).mp ⟨hy, hid⟩]
    exact hagree

namespace VeridState.Inv

variable {s : VeridState} {l : List (Nat × VerId)}

theorem nothingBehind_iff (h : s.Inv l) (verid : Nat) :
    NothingBehind verid l ↔ cutBehind verid l = l := by
  rcases cutBehind_cases verid l with ⟨hmem, hcut⟩ | ⟨l₁, v, l₂, rfl, hmem, hcut⟩
  · refine iff_of_true (fun l₁ v l₂ he => absurd ?_ hmem) hcut
    rw [he]
    simp
  · constructor
    · intro hnothing
      rw [hcut, hnothing l₁ v l₂ rfl]
    · intro heq m₁ w m₂ he
      rw [hcut] at heq
      have hlast : m₁ ++ (verid, w) :: m₂ = l₁ ++ [(verid, v)] := by rw [heq, he]
      have hm₂ : verid ∉ m₂.map Prod.fst := by
        have hseg := h.holds
        rw [he] at hseg
        exact hseg.not_mem_of_append.2
      rcases List.eq_nil_or_concat m₂ with hnil | ⟨m, z, rfl⟩
      · exact hnil
      · rw [List.concat_eq_append, ← List.cons_append, ← List.append_assoc] at hlast
        have hz := (List.append_inj' hlast rfl).2
        rw [List.cons.injEq] at hz
        simp [hz.1] at hm₂

/-- What stands behind a node has other letters. -/
theorem letter_ne (h : s.Inv l) {l₁ l₂ : List (Nat × VerId)} {x y : Nat × VerId}
    (hl : l = l₁ ++ x :: y :: l₂) : getVerIdCharFromThis y.2 ≠ getVerIdCharFromThis x.2 := by
  have hnodup := h.nodup
  rw [hl, letters, List.map_append, List.map_append, List.nodup_append] at hnodup
  have hcons := (List.nodup_cons.mp hnodup.2.1).1
  intro he
  exact hcons (he ▸ List.mem_cons_self)

/-- The ids with other letters are all there after a cut if and only if the cut cuts nothing
off. -/
theorem filter_cutBehind (h : s.Inv l) {verid : Nat} {x : VerId}
    (hx : s.heap[verid]?.map Node.val = some x) :
    ((cutBehind verid l).map Prod.snd).filter
          (fun y => getVerIdCharFromThis y != getVerIdCharFromThis x) =
        (l.map Prod.snd).filter (fun y => getVerIdCharFromThis y != getVerIdCharFromThis x) ↔
      cutBehind verid l = l := by
  constructor
  · intro hfilter
    rcases cutBehind_cases verid l with ⟨-, hcut⟩ | ⟨l₁, v, l₂, hl, -, hcut⟩
    · exact hcut
    · rw [hcut, hl] at hfilter ⊢
      cases l₂ with
      | nil => rfl
      | cons y l₂ =>
          have hv : v = x := by
            obtain ⟨next, hget⟩ := h.holds.getElem? (a := verid) (v := v) (by simp [hl])
            rw [hget] at hx
            exact Option.some_inj.mp hx
          have hy := h.letter_ne hl
          rw [hv] at hy
          have hlen := congrArg List.length hfilter
          simp [hv, hy] at hlen
  · intro hcut
    rw [hcut]

/-- `swverid_replace_verid` does what it should if and only if the caller's node has nothing
behind it and the head is not to be replaced. -/
theorem replace (h : s.Inv l) {verid : Nat} {x : VerId}
    (hx : s.heap[verid]?.map Node.val = some x) :
    ∃ s' l', swveridReplaceVerid s verid = .returned s' ∧ s'.Holds l' ∧
      (ReplacedBy x (l.map Prod.snd) (l'.map Prod.snd) ↔
        NothingBehind verid l ∧ ReplaceOk x (l.map Prod.snd)) := by
  obtain ⟨s', l', hcall, hinv, hids⟩ := h.iReplaceVerid hx true
  obtain ⟨n, hget, hn⟩ := Option.map_eq_some_iff.mp hx
  obtain ⟨t, ht⟩ := h.created x (hn ▸ List.mem_map_of_mem (List.mem_of_getElem? hget))
  have hvalue := storedValue_eq_self_of_createVersionId ht
  generalize hcopy : ({ x with value := storedValue x.id x.value } : VerId) = c at hids
  have hc : getVerIdCharFromThis c = getVerIdCharFromThis x := by
    rw [← hcopy]
    rfl
  refine ⟨s', l', hcall, hinv.holds, ?_⟩
  rw [ReplacedBy, hids, filter_replaceIn hc, h.filter_cutBehind hx, h.nothingBehind_iff, ← and_assoc,
    and_comm]
  refine and_congr_right fun hcut => ?_
  rw [hcut]
  exact replaceOk_iff hc (by rw [← hcopy]) (by rw [← hcopy]; exact hvalue) h.nodup

/-- `swverid_add_verid_if` does what it should if and only if the caller's node has nothing behind
it. -/
theorem addIf (h : s.Inv l) {verid : Nat} {x : VerId}
    (hx : s.heap[verid]?.map Node.val = some x) :
    ∃ s' l', swveridAddVeridIf s verid = .returned s' ∧ s'.Holds l' ∧
      (AddedIf x (l.map Prod.snd) (l'.map Prod.snd) ↔ NothingBehind verid l) := by
  obtain ⟨s', l', hcall, hinv, hids⟩ := h.iReplaceVerid hx false
  generalize hcopy : ({ x with value := storedValue x.id x.value } : VerId) = c at hids
  have hc : getVerIdCharFromThis c = getVerIdCharFromThis x := by
    rw [← hcopy]
    rfl
  refine ⟨s', l', hcall, hinv.holds, ?_⟩
  rw [AddedIf, hids, filter_replaceIn hc, h.filter_cutBehind hx, h.nothingBehind_iff]
  refine and_iff_right_of_imp fun hcut hmem => ?_
  rw [hcut, replaceIn_false, if_pos hmem]

end VeridState.Inv

/-- In every state that calls reach, no two ids have the same letter; and what the next call on a
node of the heap does to the list is what it should do exactly under the conditions above. -/
theorem veridList_run (calls : List VeridCall) (s : VeridState)
    (hrun : VeridState.empty.run calls = .returned s) :
    ∃ l, s.Holds l ∧ (letters (l.map Prod.snd)).Nodup ∧
      ∀ verid x, s.heap[verid]?.map Node.val = some x →
        (∃ s' l', swveridReplaceVerid s verid = .returned s' ∧ s'.Holds l' ∧
          (ReplacedBy x (l.map Prod.snd) (l'.map Prod.snd) ↔
            NothingBehind verid l ∧ ReplaceOk x (l.map Prod.snd))) ∧
        ∃ s' l', swveridAddVeridIf s verid = .returned s' ∧ s'.Holds l' ∧
          (AddedIf x (l.map Prod.snd) (l'.map Prod.snd) ↔ NothingBehind verid l) := by
  have hempty : VeridState.empty.Inv [] := ⟨.nil none, by simp [VeridState.empty], List.nodup_nil⟩
  obtain ⟨l, hinv⟩ := hempty.run hrun
  exact ⟨l, hinv.holds, hinv.nodup, fun verid x hx => ⟨hinv.replace hx, hinv.addIf hx⟩⟩

/-- The id of a text without a qualifier. -/
def plainVerId (id relOp value : Bytes) (code : Nat) : VerId :=
  ⟨id, id, [], relOp, code, value⟩

/-- `r==1`, `a=x` and `a=y` are made, the first two are added. -/
def addedTwo : VeridState where
  heap :=
    [⟨plainVerId (chars ['r']) swveridRelopEq (chars ['1']) 4, none⟩,
      ⟨plainVerId (chars ['r']) swveridRelopEq (chars ['1']) 4, some 3⟩,
      ⟨plainVerId (chars ['a']) swveridRelopEq2 (chars ['x']) 3, none⟩,
      ⟨plainVerId (chars ['a']) swveridRelopEq2 (chars ['x']) 3, none⟩,
      ⟨plainVerId (chars ['a']) swveridRelopEq2 (chars ['y']) 3, none⟩]
  verIdList := some 1

/-- Replacing the second id of two. -/
theorem veridList_run_addedTwo :
    ∃ l s' l', addedTwo.Holds l ∧ swveridReplaceVerid addedTwo 4 = .returned s' ∧ s'.Holds l' ∧
      ReplacedBy (plainVerId (chars ['a']) swveridRelopEq2 (chars ['y']) 3) (l.map Prod.snd)
        (l'.map Prod.snd) := by
  obtain ⟨l, hl, -, hcalls⟩ := veridList_run
    [.create (chars ['r', '=', '=', '1']), .addIf 0, .create (chars ['a', '=', 'x']), .addIf 2,
      .create (chars ['a', '=', 'y'])] addedTwo (by decide)
  obtain ⟨s', l', hreplace, hl', hiff⟩ := (hcalls 4 _ rfl).1
  have hseg : addedTwo.Holds
      [(1, plainVerId (chars ['r']) swveridRelopEq (chars ['1']) 4),
        (3, plainVerId (chars ['a']) swveridRelopEq2 (chars ['x']) 3)] :=
    .cons rfl (.cons rfl (.nil none))
  have hids := hl.unique hseg
  refine ⟨l, s', l', hl, hreplace, hl', hiff.mpr ⟨?_, ?_⟩⟩
  · intro l₁ v l₂ he
    have hmem : (4, v) ∈ l := he ▸ List.mem_append_right _ List.mem_cons_self
    rw [hids] at hmem
    simp at hmem
  · rw [hids]
    refine ⟨fun y hy hid => ?_, fun _ hslash => absurd hslash.1 (by decide)⟩
    cases hy
    exact absurd hid (by decide)

/-- `r==1` is the only id, and `r==2` is to replace it. -/
def addedOne : VeridState where
  heap :=
    [⟨plainVerId (chars ['r']) swveridRelopEq (chars ['1']) 4, none⟩,
      ⟨plainVerId (chars ['r']) swveridRelopEq (chars ['1']) 4, none⟩,
      ⟨plainVerId (chars ['r']) swveridRelopEq (chars ['2']) 4, none⟩]
  verIdList := some 1

/-- The id at the head stays as it was. -/
theorem veridList_head_not_replaced :
    VeridState.empty.run [.create (chars ['r', '=', '=', '1']), .addIf 0,
        .create (chars ['r', '=', '=', '2'])] = .returned addedOne ∧
      ∃ s', swveridReplaceVerid addedOne 2 = .returned s' ∧
        ∀ l l', addedOne.Holds l → s'.Holds l' →
          ¬ReplacedBy (plainVerId (chars ['r']) swveridRelopEq (chars ['2']) 4) (l.map Prod.snd)
            (l'.map Prod.snd) := by
  refine ⟨by decide, { addedOne with
    heap := addedOne.heap.alloc (plainVerId (chars ['r']) swveridRelopEq (chars ['2']) 4) },
    by decide, ?_⟩
  intro l l' hl hl' hreplaced
  have hseg : addedOne.Holds [(1, plainVerId (chars ['r']) swveridRelopEq (chars ['1']) 4)] :=
    .cons rfl (.nil none)
  rw [hl'.unique (hseg.alloc _)] at hreplaced
  have hvalue := (hreplaced.2.1 _ List.mem_cons_self rfl).2
  exact absurd hvalue (by decide)

end Swbis.Misc
