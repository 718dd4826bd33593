import Swbis.Misc.SwvarfsTar

/-!
# Entries of a catalog tarball

`swicat_e_open_catalog_tarball` finds the entries in a tarball of catalog
entries.  An entry begins at the name that the outer loop gets, and goes on as
long as names begin with it.  The name that ends an entry belongs to the next
one, but the outer loop asks for another name.

So the second entry found begins behind the member at which the first one ends,
and the entries do not cover the tarball (`catalogTiled_iff`).
-/

namespace Swbis.Misc

open CLib Swbis.Taru Swvarfs

/-! ## The code -/

/-- `SWICAT_E` -/
structure SwicatE where
  entryPrefix : Bytes
  startOffset : Int
  endOffset : Int
deriving DecidableEq

/-- The loop of `init_catalog_entry`. -/
def memberLoop (a : Archive) (entryPrefix : Bytes) : Nat → Swvarfs → Outcome Swvarfs
  | 0, _ => .outOfFuel
  | fuel + 1, sv => do
      let (path, sv) ← getNextDirent a fuel sv
      match path with
      | none => return sv
      | some path =>
          if sv.eoa = 0 ∧ path ≠ [] ∧ entryPrefix <+: path then memberLoop a entryPrefix fuel sv
          else return sv

/-- `init_catalog_entry`, for a path that is not empty. -/
def initCatalogEntry (a : Archive) (fuel : Nat) (sv : Swvarfs) (fpath : Bytes) :
    Outcome (SwicatE × Swvarfs) := do
  let startOffset := toCInt sv.pos
  let sv ← memberLoop a fpath fuel sv
  return ({ entryPrefix := fpath, startOffset := startOffset, endOffset := toCInt sv.pos }, sv)

/-- The loop of `swicat_e_open_catalog_tarball`. -/
def catalogLoop (a : Archive) : Nat → Swvarfs → Outcome (List SwicatE)
  | 0, _ => .outOfFuel
  | fuel + 1, sv => do
      let (path, sv) ← getNextDirent a fuel sv
      match path with
      | none => return []
      | some path =>
          if path ≠ [] ∧ path ≠ cpioInbandEoaFilename.bytes then
            let (e, sv) ← initCatalogEntry a fuel sv path
            return e :: (← catalogLoop a fuel sv)
          else return []

/-- `swicat_e_open_catalog_tarball` -/
def swicatEOpenCatalogTarball (a : Archive) (fuel : Nat) : Outcome (List SwicatE) :=
  catalogLoop a fuel {}

/-! ## Tarballs of catalog entries -/

/-- The path of an entry is the name of its first member. -/
def entryPath (entry : List ArcMember) : Bytes := (entry.head?.map (·.name)).getD []

/-- A tarball that is made of the members of catalog entries, one entry after
another.  The names in an entry begin with its path. -/
structure CatalogTarball (a : Archive) (entries : List (List ArcMember)) : Prop where
  tar : a.format = .tar
  some : entries ≠ []
  entry : ∀ e ∈ entries, e ≠ [] ∧ ∀ m ∈ e, entryPath e <+: m.name
  stands : Stands a (TarTrailerAt a) 0 entries.flatten

/-- The entries that are found tile the tarball: they have the paths of the
entries, each begins where the one before it ends, none is empty, and every byte
of a member is in one of them. -/
structure Tiles (length : Nat) (entries : List (List ArcMember)) (found : List SwicatE) : Prop where
  paths : found.map (·.entryPrefix) = entries.map entryPath
  contiguous : found.IsChain fun e f => e.endOffset = f.startOffset
  nonempty : ∀ e ∈ found, e.startOffset < e.endOffset
  covers : ∀ off : Nat, off < length → ∃ e ∈ found, e.startOffset ≤ off ∧ off < e.endOffset

/-- Opening the tarball finds entries that tile it. -/
def CatalogTiled (a : Archive) (entries : List (List ArcMember)) : Prop :=
  ∃ fuel found, swicatEOpenCatalogTarball a fuel = .returned found ∧
    Tiles (membersLength a.format entries.flatten) entries found

/-! ## The loop over the members of an entry -/

section

variable {a : Archive}

/-- One round of the loop passes one member. -/
theorem memberLoop_succ {entryPrefix : Bytes} {ms : List ArcMember} {m : ArcMember} {sv : Swvarfs}
    (h : Swvarfs.Reached a sv (m :: ms)) (hc : Comparable m.name)
    (hsmall : sv.pos + m.extent a.format < 2 ^ 31) (fuel : Nat) :
    ∃ sv₁, Swvarfs.Reached a sv₁ ms ∧
      sv₁.pos = sv.pos + m.extent a.format + (if ms = [] then 2 * tarRecordSize else 0) ∧
      memberLoop a entryPrefix (fuel + 1) sv =
        match ms with
        | [] => .returned sv₁
        | m' :: _ =>
            if entryPrefix <+: m'.name then memberLoop a entryPrefix fuel sv₁ else .returned sv₁ := by
  obtain ⟨sv₁, hnext, hr, hpos⟩ := getNextDirent_reached fuel h hc hsmall
  refine ⟨sv₁, hr, hpos, ?_⟩
  rw [memberLoop, hnext, Outcome.returned_bind]
  cases ms with
  | nil => rfl
  | cons m' ms =>
      rw [List.head?_cons, Option.map_some]
      simp only
      by_cases hprefix : entryPrefix <+: m'.name
      · rw [if_pos hprefix, if_pos ⟨hr.2.1, m'.named, hprefix⟩]
      · rw [if_neg hprefix, if_neg (fun h => hprefix h.2.2)]
        rfl

/-- A loop that returns has compared the name of the member it begins at. -/
theorem comparable_of_memberLoop_head {entryPrefix : Bytes} {ms : List ArcMember} {m : ArcMember}
    {sv sv' : Swvarfs} {fuel : Nat} (h : Swvarfs.Reached a sv (m :: ms))
    (hloop : memberLoop a entryPrefix fuel sv = .returned sv') : Comparable m.name := by
  cases fuel with
  | zero => cases hloop
  | succ fuel =>
      obtain ⟨r, hr, -⟩ := Outcome.bind_eq_returned.mp hloop
      exact comparable_of_getNextDirent h hr

/-- If all names begin with the path, the loop ends behind the trailer. -/
theorem memberLoop_all {entryPrefix : Bytes} {ms : List ArcMember} {m : ArcMember} {sv : Swvarfs}
    {fuel : Nat} (h : Swvarfs.Reached a sv (m :: ms)) (hall : ∀ m' ∈ ms, entryPrefix <+: m'.name)
    (hc : ∀ m' ∈ m :: ms, Comparable m'.name)
    (hsmall : sv.pos + membersLength a.format (m :: ms) < 2 ^ 31) (hfuel : ms.length < fuel) :
    ∃ sv', memberLoop a entryPrefix fuel sv = .returned sv' ∧ Swvarfs.Reached a sv' [] ∧
      sv'.pos = sv.pos + membersLength a.format (m :: ms) + 2 * tarRecordSize := by
  obtain ⟨fuel, rfl⟩ : ∃ n, fuel = n + 1 := ⟨fuel - 1, by omega⟩
  induction ms generalizing m sv fuel with
  | nil =>
      obtain ⟨sv', hr, hpos, hloop⟩ := memberLoop_succ h (hc m List.mem_cons_self)
        (by simpa using hsmall) fuel
      exact ⟨sv', hloop, hr, by simpa using hpos⟩
  | cons m' ms ih =>
      rw [membersLength_cons] at hsmall
      obtain ⟨sv₁, hr, hpos, hloop⟩ := memberLoop_succ h (hc m List.mem_cons_self) (by omega) fuel
      rw [if_neg (List.cons_ne_nil _ _), Nat.add_zero] at hpos
      simp only at hloop
      rw [if_pos (hall m' List.mem_cons_self)] at hloop
      obtain ⟨fuel, rfl⟩ : ∃ n, fuel = n + 1 := ⟨fuel - 1, by rw [List.length_cons] at hfuel; omega⟩
      obtain ⟨sv', hloop', hr', hpos'⟩ := ih hr
        (fun x hx => hall x (List.mem_cons_of_mem _ hx))
        (fun x hx => hc x (List.mem_cons_of_mem _ hx)) (by rw [hpos]; omega) fuel
        (Nat.lt_of_succ_lt_succ hfuel)
      refine ⟨sv', hloop.trans hloop', hr', ?_⟩
      rw [hpos', hpos, membersLength_cons a.format m]
      omega

/-- A loop that returns has compared every name it has passed. -/
theorem comparable_of_memberLoop {entryPrefix : Bytes} {ms : List ArcMember} {m : ArcMember}
    {sv sv' : Swvarfs} {fuel : Nat} (h : Swvarfs.Reached a sv (m :: ms))
    (hall : ∀ m' ∈ ms, entryPrefix <+: m'.name)
    (hsmall : sv.pos + membersLength a.format (m :: ms) < 2 ^ 31)
    (hloop : memberLoop a entryPrefix fuel sv = .returned sv') :
    (∀ m' ∈ m :: ms, Comparable m'.name) ∧
      sv'.pos = sv.pos + membersLength a.format (m :: ms) + 2 * tarRecordSize := by
  induction ms generalizing m sv fuel with
  | nil =>
      have hc := comparable_of_memberLoop_head h hloop
      cases fuel with
      | zero => cases hloop
      | succ fuel =>
          obtain ⟨sv₁, -, hpos, hround⟩ := memberLoop_succ h hc (by simpa using hsmall) fuel
          rw [hround] at hloop
          cases hloop
          exact ⟨List.forall_mem_singleton.mpr hc, by simpa using hpos⟩
  | cons m' ms ih =>
      have hc := comparable_of_memberLoop_head h hloop
      cases fuel with
      | zero => cases hloop
      | succ fuel =>
          rw [membersLength_cons] at hsmall
          obtain ⟨sv₁, hr, hpos, hround⟩ := memberLoop_succ h hc (by omega) fuel
          rw [if_neg (List.cons_ne_nil _ _), Nat.add_zero] at hpos
          simp only at hround
          rw [if_pos (hall m' List.mem_cons_self)] at hround
          rw [hround] at hloop
          obtain ⟨hrec, hpos'⟩ := ih hr (fun x hx => hall x (List.mem_cons_of_mem _ hx))
            (by rw [hpos]; omega) hloop
          refine ⟨List.forall_mem_cons.mpr ⟨hc, hrec⟩, ?_⟩
          rw [hpos', hpos, membersLength_cons a.format m]
          omega

/-- The loop stops at a later member, or behind the trailer. -/
theorem reached_of_memberLoop {entryPrefix : Bytes} {ms : List ArcMember} {m : ArcMember}
    {sv sv' : Swvarfs} {fuel : Nat} (h : Swvarfs.Reached a sv (m :: ms))
    (hsmall : sv.pos + membersLength a.format (m :: ms) < 2 ^ 31)
    (hloop : memberLoop a entryPrefix fuel sv = .returned sv') :
    ∃ ms', Swvarfs.Reached a sv' ms' ∧
      (ms' ≠ [] → sv'.pos + membersLength a.format ms' < 2 ^ 31) := by
  induction ms generalizing m sv fuel with
  | nil =>
      have hc := comparable_of_memberLoop_head h hloop
      cases fuel with
      | zero => cases hloop
      | succ fuel =>
          obtain ⟨sv₁, hr, -, hround⟩ := memberLoop_succ h hc (by simpa using hsmall) fuel
          rw [hround] at hloop
          cases hloop
          exact ⟨[], hr, fun hne => absurd rfl hne⟩
  | cons m' ms ih =>
      have hc := comparable_of_memberLoop_head h hloop
      cases fuel with
      | zero => cases hloop
      | succ fuel =>
          rw [membersLength_cons] at hsmall
          obtain ⟨sv₁, hr, hpos, hround⟩ := memberLoop_succ h hc (by omega) fuel
          rw [if_neg (List.cons_ne_nil _ _), Nat.add_zero] at hpos
          rw [hround] at hloop
          simp only at hloop
          split at hloop
          · exact ih hr (by rw [hpos]; omega) hloop
          · cases hloop
            exact ⟨m' :: ms, hr, fun _ => by rw [hpos]; omega⟩

/-! ## The loop over the entries -/

/-- An entry that is found, and what is found behind it. -/
theorem catalogLoop_cons {fuel : Nat} {sv : Swvarfs} {e : SwicatE} {found : List SwicatE}
    (h : catalogLoop a fuel sv = .returned (e :: found)) :
    ∃ n path sv₁ sv₂, getNextDirent a n sv = .returned (some path, sv₁) ∧ path ≠ [] ∧
      memberLoop a path n sv₁ = .returned sv₂ ∧
      e = { entryPrefix := path, startOffset := toCInt sv₁.pos, endOffset := toCInt sv₂.pos } ∧
      catalogLoop a n sv₂ = .returned found := by
  cases fuel with
  | zero => cases h
  | succ n =>
      obtain ⟨⟨path, sv₁⟩, hnext, h⟩ := Outcome.bind_eq_returned.mp h
      cases path with
      | none => cases h
      | some path =>
          simp only at h
          split at h
          next hpath =>
            obtain ⟨⟨e', sv₂⟩, hinit, h⟩ := Outcome.bind_eq_returned.mp h
            obtain ⟨sv₃, hloop, hinit⟩ := Outcome.bind_eq_returned.mp hinit
            obtain ⟨found', hrest, h⟩ := Outcome.bind_eq_returned.mp h
            cases hinit
            cases h
            exact ⟨n, path, sv₁, sv₂, hnext, hpath.1, hloop, rfl, hrest⟩
          next => cases h

/-- The offsets that are stored are values of an `int`. -/
theorem endOffset_lt {fuel : Nat} {sv : Swvarfs} {found : List SwicatE}
    (h : catalogLoop a fuel sv = .returned found) : ∀ e ∈ found, e.endOffset < 2 ^ 31 := by
  induction found generalizing fuel sv with
  | nil => simp
  | cons e found ih =>
      obtain ⟨n, path, sv₁, sv₂, -, -, -, he, hrest⟩ := catalogLoop_cons h
      intro x hx
      rcases List.mem_cons.mp hx with rfl | hx
      · rw [he]
        simp only
        rcases toCInt_cases sv₂.pos with ⟨hlt, heq⟩ | ⟨hle, heq⟩
        · omega
        · omega
      · exact ih hrest x hx

/-- The first call returns the first member. -/
theorem getNextDirent_start {ms : List ArcMember} (hs : Stands a (TarTrailerAt a) 0 ms) (fuel : Nat) :
    ∃ sv, getNextDirent a fuel {} = .returned (ms.head?.map (·.name), sv) ∧ Swvarfs.Reached a sv ms ∧
      sv.pos = if ms = [] then 2 * tarRecordSize else 0 := by
  have t : Traversing {} := ⟨rfl, rfl, rfl⟩
  obtain ⟨sv, hnext, hr, hpos⟩ := nextHeader_between t rfl rfl hs
  exact ⟨sv, hnext, hr, by rw [hpos, Nat.zero_add]⟩

/-- The second entry that is found begins behind the end of the first: the member
at which the first one ends has been read over. -/
theorem endOffset_ne_startOffset {m : ArcMember} {ms : List ArcMember} {fuel : Nat}
    {e f : SwicatE} {found : List SwicatE} (hs : Stands a (TarTrailerAt a) 0 (m :: ms))
    (hsmall : membersLength a.format (m :: ms) < 2 ^ 31)
    (h : catalogLoop a fuel {} = .returned (e :: f :: found)) : e.endOffset ≠ f.startOffset := by
  obtain ⟨n, path, sv₁, sv₂, hnext, -, hloop, he, hrest⟩ := catalogLoop_cons h
  obtain ⟨n', path', sv₃, sv₄, hnext', hpath', -, hf, -⟩ := catalogLoop_cons hrest
  obtain ⟨sv, hstart, hr, hpos⟩ := getNextDirent_start hs n
  rw [hnext] at hstart
  cases hstart
  rw [if_neg (List.cons_ne_nil _ _)] at hpos
  obtain ⟨ms', hr', hsmall'⟩ := reached_of_memberLoop hr (by rw [hpos]; omega) hloop
  cases ms' with
  | nil =>
      obtain ⟨r, hend, hcases⟩ := getNextDirent_end n' hr'
      rw [hnext'] at hend
      cases hend
      rcases hcases with hnone | hempty
      · cases hnone
      · exact absurd (Option.some.inj hempty) hpath'
  | cons m' ms' =>
      have hlt := hsmall' (List.cons_ne_nil _ _)
      rw [membersLength_cons] at hlt
      obtain ⟨sv, hnext'', -, hpos'⟩ := getNextDirent_reached n' hr'
        (comparable_of_getNextDirent hr' hnext') (by omega)
      rw [hnext'] at hnext''
      cases ms' with
      | nil => cases hnext''
      | cons m'' ms'' =>
          cases hnext''
          rw [if_neg (List.cons_ne_nil _ _), Nat.add_zero] at hpos'
          have hext := m'.extent_pos a.format
          rw [he, hf]
          simp only
          rw [toCInt_of_lt (by omega), toCInt_of_lt (by omega), hpos']
          omega

/-- A tarball of one entry, opened. -/
theorem catalogLoop_single {m : ArcMember} {ms : List ArcMember} {n : Nat}
    (hs : Stands a (TarTrailerAt a) 0 (m :: ms))
    (hall : ∀ m' ∈ ms, m.name <+: m'.name) (hc : ∀ m' ∈ m :: ms, Comparable m'.name)
    (hsmall : membersLength a.format (m :: ms) < 2 ^ 31) (hfuel : ms.length < n) :
    catalogLoop a (n + 1) {} = .returned [{
      entryPrefix := m.name
      startOffset := 0
      endOffset := toCInt (membersLength a.format (m :: ms) + 2 * tarRecordSize : Nat) }] := by
  obtain ⟨sv₁, hnext, hr, hpos⟩ := getNextDirent_start hs n
  rw [if_neg (List.cons_ne_nil _ _)] at hpos
  obtain ⟨sv₂, hloop, hr', hpos'⟩ := memberLoop_all hr hall hc (by rw [hpos]; omega) hfuel
  rw [hpos, Nat.zero_add] at hpos'
  obtain ⟨n, rfl⟩ : ∃ k, n = k + 1 := ⟨n - 1, by omega⟩
  obtain ⟨⟨path, sv₃⟩, hend, hcases⟩ := getNextDirent_end n hr'
  have hstop : catalogLoop a (n + 1) sv₂ = .returned [] := by
    rw [catalogLoop, hend, Outcome.returned_bind]
    rcases hcases with h | h
    · simp only at h
      rw [h]
      rfl
    · simp only at h
      rw [h]
      simp only
      rw [if_neg (fun h => h.1 rfl)]
      rfl
  rw [catalogLoop, hnext, List.head?_cons, Option.map_some, Outcome.returned_bind]
  simp only
  rw [if_pos ⟨m.named, m.notTrailer⟩, initCatalogEntry, hloop, Outcome.returned_bind]
  simp only [Outcome.pure_eq, Outcome.returned_bind, hstop, hpos, hpos']
  rfl

/-! ## When the entries tile the tarball -/

/-- Entries that tile a tarball end within an `int`. -/
theorem membersLength_lt_of_tiles {entries : List (List ArcMember)} {fuel length : Nat}
    {found : List SwicatE} (h : catalogLoop a fuel {} = .returned found)
    (ht : Tiles length entries found) : length < 2 ^ 31 := by
  cases length with
  | zero => decide
  | succ n =>
      obtain ⟨e, he, -, hlt⟩ := ht.covers n (Nat.lt_succ_self n)
      have := endOffset_lt h e he
      omega

/-- Entries behind the first are not found where they begin. -/
theorem not_catalogTiled_of_two {first second : List ArcMember} {rest : List (List ArcMember)}
    (hcat : CatalogTarball a (first :: second :: rest)) :
    ¬ CatalogTiled a (first :: second :: rest) := by
  rintro ⟨fuel, found, hopen, ht⟩
  have hsmall := membersLength_lt_of_tiles hopen ht
  obtain ⟨m, ms, rfl⟩ := List.exists_cons_of_ne_nil (hcat.entry first List.mem_cons_self).1
  have hs : Stands a (TarTrailerAt a) 0 (m :: (ms ++ (second :: rest).flatten)) := hcat.stands
  have hlen := congrArg List.length ht.paths
  rw [List.length_map, List.length_map] at hlen
  cases found with
  | nil => cases hlen
  | cons e found =>
      cases found with
      | nil => cases Nat.succ.inj hlen
      | cons f found =>
          exact endOffset_ne_startOffset hs hsmall hopen (List.isChain_cons_cons.mp ht.contiguous).1

/-- The entries that are found tile the tarball just when it is made of a single
entry, ends with its trailer within the range of an `int`, and all its names can
be compared. -/
theorem catalogTiled_iff {entries : List (List ArcMember)} (hcat : CatalogTarball a entries) :
    CatalogTiled a entries ↔
      entries.length = 1 ∧
        membersLength a.format entries.flatten + 2 * tarRecordSize < 2 ^ 31 ∧
        ∀ m ∈ entries.flatten, Comparable m.name := by
  obtain ⟨first, rest, rfl⟩ := List.exists_cons_of_ne_nil hcat.some
  obtain ⟨hfirst, hprefix⟩ := hcat.entry first List.mem_cons_self
  obtain ⟨m, ms, rfl⟩ := List.exists_cons_of_ne_nil hfirst
  have hall : ∀ m' ∈ ms, m.name <+: m'.name :=
    fun m' hm' => hprefix m' (List.mem_cons_of_mem _ hm')
  have hs : Stands a (TarTrailerAt a) 0 (m :: (ms ++ rest.flatten)) := hcat.stands
  constructor
  · rintro ⟨fuel, found, hopen, ht⟩
    have hsmall := membersLength_lt_of_tiles hopen ht
    cases rest with
    | nil =>
        rw [List.flatten_nil, List.append_nil] at hs
        rw [List.flatten_singleton] at hsmall ht ⊢
        -- Every name has been compared on the way to the end of the entry.
        obtain ⟨e, rfl⟩ : ∃ e, found = [e] := by
          have hlen := congrArg List.length ht.paths
          rw [List.length_map, List.length_map] at hlen
          exact List.length_eq_one_iff.mp hlen
        obtain ⟨n, path, sv₁, sv₂, hnext, -, hloop, he, -⟩ := catalogLoop_cons hopen
        obtain ⟨sv, hstart, hr, hpos⟩ := getNextDirent_start hs n
        rw [hnext] at hstart
        cases hstart
        rw [if_neg (List.cons_ne_nil _ _)] at hpos
        obtain ⟨hc, hpos'⟩ := comparable_of_memberLoop hr hall (by rw [hpos]; omega) hloop
        refine ⟨rfl, ?_, hc⟩
        -- The end of the entry is the end of the trailer, as an `int`.
        have hext := m.extent_pos a.format
        rw [membersLength_cons] at hsmall hpos' ht ⊢
        obtain ⟨e', he', -, hlt⟩ := ht.covers (m.extent a.format + membersLength a.format ms - 1)
          (by omega)
        rw [List.mem_singleton.mp he', he] at hlt
        simp only at hlt
        simp only [tarRecordSize] at hpos' ⊢
        rcases toCInt_cases sv₂.pos with ⟨h31, heq⟩ | ⟨h31, heq⟩
        · omega
        · omega
    | cons second rest => exact absurd ⟨fuel, found, hopen, ht⟩ (not_catalogTiled_of_two hcat)
  · rintro ⟨hone, hsmall, hc⟩
    obtain rfl : rest = [] := by simpa using hone
    rw [List.flatten_nil, List.append_nil] at hs
    rw [List.flatten_singleton] at hsmall hc
    refine ⟨ms.length + 1 + 1, _, catalogLoop_single hs hall hc (by omega) (Nat.lt_succ_self _), ?_⟩
    rw [toCInt_of_lt hsmall, List.flatten_singleton]
    refine ⟨rfl, List.IsChain.singleton _, ?_, ?_⟩
    · intro e he
      rw [List.mem_singleton.mp he]
      simp only [tarRecordSize]
      omega
    · intro off hoff
      refine ⟨_, List.mem_singleton.mpr rfl, ?_⟩
      simp only [tarRecordSize]
      omega

end

/-! ## Two entries -/

/-- The directory `a/`. -/
def directoryA : DirectoryName where
  name := ⟨chars ['a', '/'], by decide⟩
  slash := by decide
  short := by decide
  stored := by decide
  notTrailer := by decide

/-- The directory `b/`. -/
def directoryB : DirectoryName where
  name := ⟨chars ['b', '/'], by decide⟩
  slash := by decide
  short := by decide
  stored := by decide
  notTrailer := by decide

/-- A reader without users, groups and flags. -/
def blankEnv : TarEnv where
  db := .blank
  flags := {}
  erange := false
  kind := .uxfio
  fnmatch _ _ := false

/-- The tar file of some directories. -/
def directoriesArchive (ds : List DirectoryName) : Archive := tarArchive blankEnv (directoriesTar ds)

/-- Each directory is an entry of its own. -/
theorem catalogTarball_directories {ds : List DirectoryName} (hne : ds ≠ []) :
    CatalogTarball (directoriesArchive ds) (ds.map fun d => [d.member]) where
  tar := rfl
  some h := hne (List.map_eq_nil_iff.mp h)
  entry e he := by
    obtain ⟨d, -, rfl⟩ := List.mem_map.mp he
    refine ⟨List.cons_ne_nil _ _, fun m hm => ?_⟩
    rw [List.mem_singleton.mp hm]
    exact List.prefix_rfl
  stands := by
    have hflat : (ds.map fun d => [d.member]).flatten = ds.map (·.member) := by
      rw [← List.flatMap_def, List.map_eq_flatMap]
    rw [hflat]
    exact stands_directories rfl

/-- The file `a/f` of four bytes. -/
def fileF : RegularFile where
  name := ⟨chars ['a', '/', 'f'], by decide⟩
  data := chars ['t', 'e', 'x', 't']
  named := by decide
  short := by decide
  stored := by decide
  notTrailer := by decide
  small := by decide

/-- The file `a/g` of more than one record. -/
def fileG : RegularFile where
  name := ⟨chars ['a', '/', 'g'], by decide⟩
  data := List.replicate 600 120
  named := by decide
  short := by decide
  stored := by decide
  notTrailer := by decide
  small := by
    rw [List.length_replicate]
    decide

/-- A directory and the files below it. -/
def entryMembers : List (TarMember blankEnv) :=
  [directoryA.tarMember, fileF.tarMember, fileG.tarMember]

/-- The tar file of this one entry. -/
def entryArchive : Archive := tarArchive blankEnv (membersTar entryMembers)

theorem catalogTarball_entry :
    CatalogTarball entryArchive [[directoryA.member, fileF.member, fileG.member]] where
  tar := rfl
  some := List.cons_ne_nil _ _
  entry e he := by
    obtain rfl := List.mem_singleton.mp he
    refine ⟨List.cons_ne_nil _ _, ?_⟩
    rw [List.forall_mem_cons, List.forall_mem_cons, List.forall_mem_singleton]
    decide
  stands := stands_members entryMembers rfl

/-- The entry that is found is the whole tar file. -/
theorem catalogTiled_entry :
    CatalogTiled entryArchive [[directoryA.member, fileF.member, fileG.member]] := by
  refine (catalogTiled_iff catalogTarball_entry).mpr ⟨rfl, by decide +kernel, ?_⟩
  rw [List.flatten_singleton, List.forall_mem_cons, List.forall_mem_cons, List.forall_mem_singleton]
  decide +kernel

/-- The second entry is lost, for it begins at the member that was read over. -/
theorem not_catalogTiled_two :
    CatalogTarball (directoriesArchive [directoryA, directoryB])
        [[directoryA.member], [directoryB.member]] ∧
      ¬ CatalogTiled (directoriesArchive [directoryA, directoryB])
        [[directoryA.member], [directoryB.member]] :=
  have hcat := catalogTarball_directories (List.cons_ne_nil directoryA [directoryB])
  ⟨hcat, not_catalogTiled_of_two hcat⟩

end Swbis.Misc
