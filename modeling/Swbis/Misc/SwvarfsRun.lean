import Swbis.Misc.SwvarfsChain

/-!
# Calls on an archive

`ReachedBy a meets sv`: calls lead to the state, each of them made where it meets
a condition.

`swvarfs_setdir` turns the chain on: from then on a member that is opened in order
gets a link too, made of the header that is read where the descriptor stands.
`Careful` calls read it where a member stands, and then every link stands for a
member in every state (`ReachedBy.chained`).
-/

namespace Swbis.Misc

open CLib Swbis.Taru

namespace Swvarfs

/-! ## Calls -/

/-- The calls that give access to the members. -/
inductive Call where
  | getNextDirent
  | uOpen (name : Bytes)
  | uRead (fd n : Nat)
  | uClose (fd : Nat)
  | setdir (path : Bytes)
deriving DecidableEq

/-- The state after a call. -/
def perform (a : Archive) (fuel : Nat) (sv : Swvarfs) : Call → Outcome Swvarfs
  | .getNextDirent => do return (← getNextDirent a fuel sv).2
  | .uOpen name => do return (← uOpen a fuel sv name).2
  | .uRead fd n => .returned (uRead a sv fd n).2
  | .uClose fd => .returned (uClose a sv fd).2
  | .setdir path => do return (← setdir a fuel sv path).2

/-- A state that calls lead to, each of them made where it meets a condition. -/
inductive ReachedBy (a : Archive) (meets : Swvarfs → Call → Prop) : Swvarfs → Prop where
  | start : ReachedBy a meets {}
  | step {sv sv' : Swvarfs} {fuel : Nat} {call : Call} : ReachedBy a meets sv → meets sv call →
      perform a fuel sv call = .returned sv' → ReachedBy a meets sv'

/-! ## Conditions -/

/-- The header of a member stands at the descriptor. -/
def AtHeader (a : Archive) (ms : List ArcMember) (sv : Swvarfs) : Prop :=
  ∃ m, Located a.format ms m sv.pos

/-- What is read at the descriptor is the header of a member, or it is not taken for
that of the member that is looked for. -/
def PeekSafe (a : Archive) (ms : List ArcMember) (sv : Swvarfs) (name : Bytes) : Prop :=
  AtHeader a ms sv ∨ ∃ r, a.taruReadHeader sv.hdr sv.pos = .returned r ∧
    (r.ret < 0 ∨ r.eoa.getD 0 ≠ 0 ∨
      filenameDoesMatch name r.hdr.cName.bytes = .returned false)

/-- If the name is opened where the descriptor stands, a member stands there. -/
def CursorSafe (a : Archive) (ms : List ArcMember) (sv : Swvarfs) (name : Bytes) : Prop :=
  match sv.uCurrentName with
  | some current => filenameDoesMatch name current = .returned true → AtHeader a ms sv
  | none => searchFilechain a sv name = .returned .missing → PeekSafe a ms sv name

/-- After a directory has been entered, a call opens nothing where no member
stands. -/
def Careful (a : Archive) (ms : List ArcMember) (sv : Swvarfs) : Call → Prop
  | .getNextDirent => sv.makefilechain = true → sv.uCurrentName ≠ none → sv.didUOpen = 0 →
      AtHeader a ms sv
  | .uOpen name => sv.makefilechain = true → CursorSafe a ms sv name
  | .uRead _ _ => True
  | .uClose _ => True
  | .setdir _ => True

variable {a : Archive} {ms : List ArcMember} {sv : Swvarfs}

/-! ## The steps of opening -/

/-- What is made of a header that is read at the descriptor. -/
theorem nextHeader_eq {r : HeaderRead} (h : a.taruReadHeader sv.hdr sv.pos = .returned r) :
    ∃ sv', nextHeader a sv = .returned
        (if 0 ≤ r.ret ∧ r.eoa.getD sv.eoa = 0 ∧
            isNameInScope a.fnmatch sv.dirscope r.hdr.cName.bytes = true
          then some r.hdr.cName.bytes else none, sv') ∧
      SameAccess { sv with eoa := r.eoa.getD sv.eoa } sv' ∧ sv'.filechain = sv.filechain ∧
      (0 ≤ r.ret → r.eoa.getD sv.eoa = 0 → sv'.pos = sv.pos) := by
  rw [nextHeader, readHeader, h]
  simp only [Outcome.returned_bind, Outcome.pure_eq, if_true]
  by_cases hret : r.ret < 0
  · rw [if_pos hret, if_neg (fun h => absurd h.1 (by omega))]
    exact ⟨_, rfl, ⟨rfl, rfl, rfl, rfl⟩, rfl, fun h => absurd h (by omega)⟩
  · rw [if_neg hret]
    by_cases heoa : r.eoa.getD sv.eoa = 0
    · rw [if_neg (by simpa using heoa)]
      by_cases hscope : isNameInScope a.fnmatch sv.dirscope r.hdr.cName.bytes = true
      · rw [if_pos hscope, if_pos ⟨by omega, heoa, hscope⟩]
        exact ⟨_, rfl, ⟨rfl, rfl, rfl, rfl⟩, rfl, fun _ _ => rfl⟩
      · rw [if_neg hscope, if_neg (fun h => hscope h.2.2)]
        exact ⟨_, rfl, ⟨rfl, rfl, rfl, rfl⟩, rfl, fun _ _ => rfl⟩
    · rw [if_pos heoa, if_neg (fun h => heoa h.2.1)]
      exact ⟨_, rfl, ⟨rfl, rfl, rfl, rfl⟩, rfl, fun _ h => absurd h heoa⟩

/-- What the search for the current name can come to. -/
theorem findCurrent_cases {name : Bytes} {current : Option Bytes} {existing : Option FileChain}
    {sv' : Swvarfs} (h : findCurrent a sv name = .returned (some (current, existing, sv'))) :
    (sv.uCurrentName ≠ none ∧ current = sv.uCurrentName ∧ existing = none ∧ sv' = sv) ∨
    (∃ link, sv.uCurrentName = none ∧ searchFilechain a sv name = .returned (.found link) ∧
      existing = some link ∧ sv' = { sv with currentFilechain := some link }) ∨
    (sv.uCurrentName = none ∧ searchFilechain a sv name = .returned .missing ∧ existing = none ∧
      nextHeader a { sv with eoa := 0 } = .returned (current, sv')) := by
  rw [findCurrent] at h
  cases hcur : sv.uCurrentName with
  | some c =>
      rw [hcur] at h
      cases h
      exact .inl ⟨Option.some_ne_none c, rfl, rfl, rfl⟩
  | none =>
      rw [hcur] at h
      obtain ⟨search, hsearch, h⟩ := Outcome.bind_eq_returned.mp h
      cases search with
      | found link =>
          cases h
          exact .inr (.inl ⟨link, rfl, hsearch, rfl, rfl⟩)
      | rejected => cases h
      | missing =>
          obtain ⟨⟨current', sv₁⟩, hnext, h⟩ := Outcome.bind_eq_returned.mp h
          cases h
          exact .inr (.inr ⟨rfl, hsearch, rfl, hnext⟩)

/-- The header that is entered is that at the descriptor. -/
theorem enterHeader_cases {r : Int × Swvarfs} (h : enterHeader a sv = .returned r) :
    ∃ hr, a.taruReadHeader sv.hdr sv.pos = .returned hr ∧ r.2.hdr = hr.hdr ∧
      r.2.makefilechain = sv.makefilechain ∧
      (r.2.filechain = sv.filechain ∨
        sv.makefilechain = true ∧ sv.currentFilechain = none ∧
          r.2.filechain = sv.filechain ++ [makeLink hr.hdr sv.pos]) := by
  obtain ⟨⟨ret, sv₁⟩, hread, h⟩ := Outcome.bind_eq_returned.mp h
  obtain ⟨hr, hhr, hread⟩ := Outcome.bind_eq_returned.mp hread
  cases hread
  refine ⟨hr, hhr, ?_⟩
  simp only at h
  split at h
  · cases h
    exact ⟨rfl, rfl, .inl rfl⟩
  · split at h
    next hmake =>
      cases h
      exact ⟨rfl, rfl, .inr ⟨hmake.1, hmake.2, rfl⟩⟩
    next =>
      cases h
      exact ⟨rfl, rfl, .inl rfl⟩

/-! ## The chain in every state -/

/-- A header that is read at the descriptor does not change the chain. -/
theorem nextHeader_chain {r : Option Bytes × Swvarfs} (h : nextHeader a sv = .returned r) :
    r.2.filechain = sv.filechain ∧ r.2.makefilechain = sv.makefilechain := by
  obtain ⟨x, hread, -⟩ := Outcome.bind_eq_returned.mp h
  obtain ⟨hr, hhr, -⟩ := Outcome.bind_eq_returned.mp hread
  obtain ⟨sv', hnext, hsame, hchain, -⟩ := nextHeader_eq hhr
  rw [h] at hnext
  cases hnext
  exact ⟨hchain, hsame.makefilechain⟩

theorem findCurrent_chain {name : Bytes} {current : Option Bytes} {existing : Option FileChain}
    {sv' : Swvarfs} (h : findCurrent a sv name = .returned (some (current, existing, sv'))) :
    sv'.filechain = sv.filechain ∧ sv'.makefilechain = sv.makefilechain := by
  rcases findCurrent_cases h with ⟨-, -, -, rfl⟩ | ⟨link, -, -, -, rfl⟩ | ⟨-, -, -, hnext⟩
  · exact ⟨rfl, rfl⟩
  · exact ⟨rfl, rfl⟩
  · exact nextHeader_chain hnext

/-- In the case of a traversal in order a member stands at the descriptor. -/
theorem atHeader_of_inOrder {name : Bytes} {current : Option Bytes} {existing : Option FileChain}
    {sv' : Swvarfs} (hsafe : CursorSafe a ms sv name)
    (h : findCurrent a sv name = .returned (some (current, existing, sv')))
    (horder : isInOrder name current existing = .returned true) : AtHeader a ms sv' := by
  have hmatch : ∃ c, current = some c ∧ filenameDoesMatch name c = .returned true := by
    cases current with
    | none => cases horder
    | some c =>
        obtain ⟨b, hb, hrest⟩ := Outcome.bind_eq_returned.mp horder
        cases b with
        | false => cases hrest
        | true => exact ⟨c, rfl, hb⟩
  obtain ⟨c, rfl, hmatch⟩ := hmatch
  rw [CursorSafe] at hsafe
  rcases findCurrent_cases h with ⟨-, hcur, -, rfl⟩ | ⟨link, -, -, rfl, -⟩ |
    ⟨hcur, hsearch, -, hnext⟩
  · rw [← hcur] at hsafe
    exact hsafe hmatch
  · obtain ⟨b, -, hrest⟩ := Outcome.bind_eq_returned.mp horder
    rw [Option.isNone_some, Bool.and_false] at hrest
    cases hrest
  · rw [hcur] at hsafe
    obtain ⟨x, hread, -⟩ := Outcome.bind_eq_returned.mp hnext
    obtain ⟨r, hr, -⟩ := Outcome.bind_eq_returned.mp hread
    have hr' : a.taruReadHeader sv.hdr sv.pos = .returned r := hr
    obtain ⟨sv₁, hnext', -, -, hpos⟩ := nextHeader_eq hr
    rw [hnext] at hnext'
    simp only [Outcome.returned.injEq, Prod.mk.injEq] at hnext'
    obtain ⟨hc, rfl⟩ := hnext'
    split at hc
    next hgot =>
      obtain rfl := Option.some.inj hc
      rcases hsafe hsearch with hat | ⟨r', hr'', hcases⟩
      · rw [AtHeader, hpos hgot.1 hgot.2.1]
        exact hat
      · rw [hr'] at hr''
        cases hr''
        rcases hcases with hret | heoa | hno
        · exact absurd hret (by omega)
        · exact absurd hgot.2.1 heoa
        · rw [hmatch] at hno
          cases hno
    next => cases hc

/-- A member that is sought is reached through a link, and the chain stays one of
members. -/
theorem seekToMember_chained {fuel : Nat} {name : Bytes} {r : Int × Swvarfs}
    (ha : ArchiveOf a ms) (hc : Chained a ms sv) (h : seekToMember a fuel sv name = .returned r) :
    Chained a ms r.2 ∧ r.2.makefilechain = sv.makefilechain ∧
      (r.1 = 0 → r.2.currentFilechain ≠ none) := by
  have hlink {sv' : Swvarfs} (link : FileChain) (hc' : Chained a ms sv')
      (hmake : sv'.makefilechain = sv.makefilechain) :
      Chained a ms (seekToLink sv' link).2 ∧
        (seekToLink sv' link).2.makefilechain = sv.makefilechain ∧
          ((seekToLink sv' link).1 = 0 → (seekToLink sv' link).2.currentFilechain ≠ none) := by
    rw [seekToLink, seekSet]
    split
    · exact ⟨hc'.congr rfl rfl, hmake, fun _ => Option.some_ne_none _⟩
    · exact ⟨hc'.congr rfl rfl, hmake, fun h => by cases h⟩
  obtain ⟨search, -, h⟩ := Outcome.bind_eq_returned.mp h
  cases search with
  | found link =>
      cases h
      exact hlink link hc rfl
  | _ =>
      -- rejected or missing: the headers are read
      obtain ⟨⟨found, name', sv'⟩, hreadin, h⟩ := Outcome.bind_eq_returned.mp h
      obtain ⟨hc', hsame⟩ := readinFilechain_chained ha hc hreadin
      cases found with
      | none =>
          cases h
          exact ⟨hc'.congr rfl rfl, hsame.makefilechain, fun h => by cases h⟩
      | some link =>
          simp only at h
          split at h
          · cases h
            exact hlink link hc' hsame.makefilechain
          · cases h
            exact ⟨hc'.congr rfl rfl, hsame.makefilechain, fun h => by cases h⟩

/-- A member that is entered gets a link, if it has not been reached through one. -/
theorem enterHeader_chained {r : Int × Swvarfs} (ha : ArchiveOf a ms) (hc : Chained a ms sv)
    (hat : sv.makefilechain = true → sv.currentFilechain = none → AtHeader a ms sv)
    (h : enterHeader a sv = .returned r) :
    Chained a ms r.2 ∧ r.2.makefilechain = sv.makefilechain := by
  obtain ⟨hr, hhr, -, hmake, hchain | ⟨hmk, hcur, hchain⟩⟩ := enterHeader_cases h
  · exact ⟨hc.congr hchain hmake, hmake⟩
  · obtain ⟨m, hm⟩ := hat hmk hcur
    obtain ⟨hheader, -, hsmall⟩ := ha.headerAt hm
    obtain ⟨r', hr', -, -, -, hreads⟩ := hheader sv.hdr
    rw [hhr] at hr'
    cases hr'
    refine ⟨⟨?_, fun hno => ?_⟩, hmake⟩
    · rw [hchain, makeLink_eq hreads hsmall]
      refine hc.sound.append fun link hlink => ⟨m, sv.pos, hm, List.mem_singleton.mp hlink⟩
    · rw [hmake, hmk] at hno
      cases hno

theorem seekToName_chained {fuel : Nat} {name : Bytes} {r : Int × Swvarfs} (ha : ArchiveOf a ms)
    (hc : Chained a ms sv) (hsafe : sv.makefilechain = true → CursorSafe a ms sv name)
    (h : seekToName a fuel sv name = .returned r) :
    Chained a ms r.2 ∧ r.2.makefilechain = sv.makefilechain := by
  obtain ⟨found, hfind, h⟩ := Outcome.bind_eq_returned.mp h
  cases found with
  | none =>
      cases h
      exact ⟨hc.congr rfl rfl, rfl⟩
  | some found =>
      obtain ⟨current, existing, sv₁⟩ := found
      obtain ⟨hchain, hmake⟩ := findCurrent_chain hfind
      have hc₁ := hc.congr hchain hmake
      obtain ⟨inOrder, horder, h⟩ := Outcome.bind_eq_returned.mp h
      -- Either way, a link is made only where a member stands.
      have henter (p : Int × Swvarfs) (hc₂ : Chained a ms p.2)
          (hmake₂ : p.2.makefilechain = sv.makefilechain)
          (hat : p.1 = 0 → p.2.makefilechain = true → p.2.currentFilechain = none →
            AtHeader a ms p.2)
          (h : (if p.1 = 0 then enterHeader a p.2 else .returned p) = .returned r) :
          Chained a ms r.2 ∧ r.2.makefilechain = sv.makefilechain := by
        split at h
        next h0 =>
          obtain ⟨hc₃, hmake₃⟩ := enterHeader_chained ha hc₂ (hat h0) h
          exact ⟨hc₃, hmake₃.trans hmake₂⟩
        next =>
          cases h
          exact ⟨hc₂, hmake₂⟩
      cases inOrder with
      | true =>
          have hat (hmk : sv₁.makefilechain = true) : AtHeader a ms sv₁ :=
            atHeader_of_inOrder (hsafe (hmake ▸ hmk)) hfind horder
          refine henter (enterInOrder a sv₁ current) ?_ ?_ ?_ h
          · rw [enterInOrder]
            split
            · exact hc₁.congr rfl rfl
            · exact hc₁.congr rfl rfl
          · rw [enterInOrder]
            split
            · exact hmake
            · exact hmake
          · rw [enterInOrder]
            split
            · exact fun _ hmk _ => hat hmk
            · exact fun h => by cases h
      | false =>
          obtain ⟨p, hseek, h⟩ := Outcome.bind_eq_returned.mp h
          obtain ⟨hc₂, hmake₂, hcur⟩ := seekToMember_chained ha hc₁ hseek
          exact henter p hc₂ (hmake₂.trans hmake) (fun h0 _ hnone => absurd hnone (hcur h0)) h

/-- Opening keeps the chain. -/
theorem uOpen_chained {fuel : Nat} {name : Bytes} {r : Int × Swvarfs} (ha : ArchiveOf a ms)
    (hc : Chained a ms sv) (hsafe : sv.makefilechain = true → CursorSafe a ms sv name)
    (h : uOpen a fuel sv name = .returned r) : Chained a ms r.2 := by
  rw [uOpen] at h
  split at h
  · cases h
    exact hc
  · obtain ⟨⟨ret, sv'⟩, hseek, h⟩ := Outcome.bind_eq_returned.mp h
    have hc₀ : Chained a ms { sv with didUOpen := 1 } := hc.congr rfl rfl
    obtain ⟨hc', -⟩ := seekToName_chained ha hc₀ hsafe hseek
    simp only at h
    split at h
    · cases h
      exact hc'
    · split at h
      · cases h
        exact hc'
      · cases h
        exact hc'.congr rfl rfl

theorem uRead_chain (a : Archive) (sv : Swvarfs) (fd n : Nat) :
    (uRead a sv fd n).2.filechain = sv.filechain ∧
      (uRead a sv fd n).2.makefilechain = sv.makefilechain := by
  rw [uRead]
  split
  · exact ⟨rfl, rfl⟩
  · exact ⟨rfl, rfl⟩

theorem uClose_chain (a : Archive) (sv : Swvarfs) (fd : Nat) :
    (uClose a sv fd).2.filechain = sv.filechain ∧
      (uClose a sv fd).2.makefilechain = sv.makefilechain := by
  have hleave (sv : Swvarfs) : (leaveMember a sv).filechain = sv.filechain ∧
      (leaveMember a sv).makefilechain = sv.makefilechain := by
    rw [leaveMember, seekSet]
    split
    · exact ⟨rfl, rfl⟩
    · split
      · exact ⟨rfl, rfl⟩
      · exact ⟨rfl, rfl⟩
  have hseek (u : UFd) : (sv.seekEnd u).filechain = sv.filechain ∧
      (sv.seekEnd u).makefilechain = sv.makefilechain := by
    rw [seekEnd]
    split
    · exact ⟨rfl, rfl⟩
    · exact ⟨rfl, rfl⟩
  rw [uClose]
  split
  · exact ⟨rfl, rfl⟩
  next u _ => exact ⟨(hleave _).1.trans (hseek u).1, (hleave _).2.trans (hseek u).2⟩

theorem uLstat_chained {fuel : Nat} {path : Bytes} {r : Int × Swvarfs} (ha : ArchiveOf a ms)
    (hc : Chained a ms sv) (hsafe : sv.makefilechain = true → CursorSafe a ms sv path)
    (h : uLstat a fuel sv path = .returned r) : Chained a ms r.2 := by
  obtain ⟨⟨fd, sv'⟩, hopen, h⟩ := Outcome.bind_eq_returned.mp h
  have hc' := uOpen_chained ha hc hsafe hopen
  simp only at h
  split at h
  · cases h
    exact hc'
  · cases h
    have hclose := uClose_chain a
      (if sv'.fileHasData = true then (uRead a sv' fd.toNat a.data.length).2 else sv') fd.toNat
    refine (Chained.congr ?_ hclose.1 hclose.2)
    split
    · exact hc'.congr (uRead_chain a sv' _ _).1 (uRead_chain a sv' _ _).2
    · exact hc'

/-- The next member keeps the chain. -/
theorem getNextDirent_chained {fuel : Nat} {r : Option Bytes × Swvarfs} (ha : ArchiveOf a ms)
    (hc : Chained a ms sv) (hsafe : Careful a ms sv .getNextDirent)
    (h : getNextDirent a fuel sv = .returned r) : Chained a ms r.2 := by
  have hnext {sv' : Swvarfs} (hc' : Chained a ms sv') (h : nextHeader a sv' = .returned r) :
      Chained a ms r.2 := hc'.congr (nextHeader_chain h).1 (nextHeader_chain h).2
  have hc₀ : Chained a ms { sv with eoa := 0 } := hc.congr rfl rfl
  rw [getNextDirent] at h
  simp only at h
  split at h
  · exact hnext hc₀ h
  next current hcur =>
    split at h
    next hopen =>
      obtain ⟨⟨ret, sv'⟩, hlstat, h⟩ := Outcome.bind_eq_returned.mp h
      refine hnext (uLstat_chained ha hc₀ (fun hmake => ?_) hlstat) h
      have hat : AtHeader a ms sv := hsafe hmake (by rw [hcur]; exact Option.some_ne_none current) hopen
      rw [CursorSafe]
      simp only [hcur]
      exact fun _ => hat
    next => exact hnext hc₀ h

/-- Entering a directory keeps the chain, or begins a new one. -/
theorem setdir_chained {fuel : Nat} {path : Bytes} {r : Int × Swvarfs} (ha : ArchiveOf a ms)
    (hne : ms ≠ []) (hc : Chained a ms sv) (h : setdir a fuel sv path = .returned r) :
    Chained a ms r.2 := by
  obtain ⟨m, rest, hms⟩ := List.exists_cons_of_ne_nil hne
  let sv₀ : Swvarfs := { sv with makefilechain := true, currentFilechain := none, pos := 0 }
  have hc₀ : Chained a ms sv₀ := ⟨hc.sound, nofun⟩
  -- The first member stands at the start.
  have hat : AtHeader a ms sv₀ := ⟨m, [], rest, hms, rfl⟩
  have hsafe : CursorSafe a ms sv₀ path := by
    rw [CursorSafe]
    split
    · exact fun _ => hat
    · exact fun _ => .inl hat
  rw [setdir] at h
  split at h
  · cases h
    exact hc.congr rfl rfl
  · split at h
    · cases h
      exact hc
    · simp only at h
      split at h
      · cases h
        exact hc₀
      · obtain ⟨⟨ret, sv'⟩, hlstat, h⟩ := Outcome.bind_eq_returned.mp h
        have hc' := uLstat_chained ha hc₀ (fun _ => hsafe) hlstat
        simp only at h
        split at h
        · cases h
          exact hc'
        · split at h
          · cases h
            exact hc'
          · split at h
            · cases h
              exact hc'
            · split at h
              · cases h
                exact hc'
              · cases h
                exact ⟨nofun, fun _ => ⟨[], ms, rfl, rfl⟩⟩

theorem perform_chained {fuel : Nat} {call : Call} {sv' : Swvarfs} (ha : ArchiveOf a ms)
    (hne : ms ≠ []) (hc : Chained a ms sv) (hsafe : Careful a ms sv call)
    (h : perform a fuel sv call = .returned sv') : Chained a ms sv' := by
  cases call with
  | getNextDirent =>
      obtain ⟨r, hnext, h⟩ := Outcome.bind_eq_returned.mp h
      cases h
      exact getNextDirent_chained ha hc hsafe hnext
  | uOpen name =>
      obtain ⟨r, hopen, h⟩ := Outcome.bind_eq_returned.mp h
      cases h
      exact uOpen_chained ha hc hsafe hopen
  | uRead fd n =>
      cases h
      exact hc.congr (uRead_chain a sv fd n).1 (uRead_chain a sv fd n).2
  | uClose fd =>
      cases h
      exact hc.congr (uClose_chain a sv fd).1 (uClose_chain a sv fd).2
  | setdir path =>
      obtain ⟨r, hset, h⟩ := Outcome.bind_eq_returned.mp h
      cases h
      exact setdir_chained ha hne hc hset

/-- In every state that careful calls lead to, the links are those of members. -/
theorem ReachedBy.chained (ha : ArchiveOf a ms) (hne : ms ≠ [])
    (h : ReachedBy a (Careful a ms) sv) : Chained a ms sv := by
  induction h with
  | start => exact ⟨nofun, fun _ => ⟨[], ms, rfl, rfl⟩⟩
  | step _ hsafe hcall ih => exact perform_chained ha hne ih hsafe hcall

end Swvarfs

end Swbis.Misc
