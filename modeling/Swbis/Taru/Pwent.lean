import Swbis.Lib.CString
import Swbis.Lib.Memo
import Swbis.Lib.Strtol

/-!
# The caches of user and group names

`get_pwent` looks up a name or an id, first in a cache of ten cells and then in
the system database, and stores what it found.  What is not found is stored too,
with the id or the name of `nobody`.  A cell answers lookups by its name and by
its id, so an answer can be taken from the cell of another lookup.

`pwentTransparent_iff` says for which lookups the answers are those of the
database.
-/

namespace Swbis.Taru

open CLib

/-! ## The code -/

/-- The system database of users or of groups. -/
structure PwDb where
  /-- `getpwnam`, `getgrnam`: the id. -/
  getpwnam : CString → Option UInt32
  /-- `getpwuid`, `getgrgid`: the name. -/
  getpwuid : UInt32 → Option CString

/-- `SYSDBPAIR`: the cell of a cache. -/
structure SysDbPair where
  /-- `idM` -/
  id : Int
  /-- `snameM` -/
  sname : CString
  /-- `in_sysM` -/
  inSys : Int

/-- The cells that are in use, those before `dbpair_plen`; no other is read. -/
abbrev DbCache := List SysDbPair

/-- `CACHE_LEN` -/
def cacheLen : Nat := 10

/-- `AHS_UID_NOBODY` -/
def ahsUidNobody : UInt32 := 0o7777777

/-- `AHS_USERNAME_NOBODY` -/
def ahsUsernameNobody : CString := ⟨chars ['n', 'o', 'b', 'o', 'd', 'y'], by decide⟩

/-- The `int` of an id. -/
def intOfId (id : UInt32) : Int := toCInt id.toNat

/-- `dbcache_set`.  A full cache starts again with the first cell. -/
def dbcacheSet (cache : DbCache) (name : CString) (id inSys : Int) : DbCache :=
  if cacheLen ≤ cache.length then [⟨id, name, inSys⟩] else cache ++ [⟨id, name, inSys⟩]

/-- `dbcache_lookup`: the first cell with the name, if one is given, or with the
id, if it is not negative. -/
def dbcacheLookup (cache : DbCache) (name : Option CString) (id : Int) : Option SysDbPair :=
  cache.find? fun pair => name = some pair.sname ∨ (0 ≤ id ∧ pair.id = id)

/-- `return_name_by_cache` -/
def returnNameByCache (cache : DbCache) (id : Int) : Option (CString × Int) :=
  (dbcacheLookup cache none id).map fun pair => (pair.sname, pair.inSys)

/-- `return_id_by_cache`, with what it stores in `is_in_sysdb`. -/
def returnIdByCache (cache : DbCache) (name : CString) : Int × Int :=
  match dbcacheLookup cache (some name) (-1) with
  | none => (-1, 0)
  | some pair => (pair.id, pair.inSys)

/-- A lookup: a name, or an id. -/
inductive PwLookup where
  | byName (userkey : CString)
  | byId (id : UInt32)

/-- What a lookup gives. -/
structure PwAnswer where
  /-- The value returned. -/
  ret : Int
  /-- What is stored for the id, if anything. -/
  ppid : Option Int
  /-- The name that is copied to the buffers, if any. -/
  cname : Option CString

/-- `get_pwent`. -/
def getPwent (db : PwDb) (cache : DbCache) : PwLookup → PwAnswer × DbCache
  | .byName userkey =>
      if userkey.strlen = 0 then (⟨-1, none, none⟩, cache)
      else
        let (n, isInSysdb) := returnIdByCache cache userkey
        if 0 ≤ n then (⟨isInSysdb, some n, none⟩, cache)
        else
          match db.getpwnam userkey with
          | some uid => (⟨0, some uid.toNat, none⟩, dbcacheSet cache userkey (intOfId uid) 0)
          | none =>
              (⟨-1, some ahsUidNobody.toNat, none⟩,
                dbcacheSet cache userkey (intOfId ahsUidNobody) (-1))
  | .byId id =>
      match returnNameByCache cache (intOfId id) with
      | some (cname, isInSysdb) => (⟨isInSysdb, none, some cname⟩, cache)
      | none =>
          match db.getpwuid id with
          | some cname => (⟨0, none, some cname⟩, dbcacheSet cache cname (intOfId id) 0)
          | none =>
              (⟨-1, none, some ahsUsernameNobody⟩,
                dbcacheSet cache ahsUsernameNobody (intOfId id) (-1))

/-- The answers to a sequence of lookups, from a cache on. -/
def getPwents (db : PwDb) (cache : DbCache) : List PwLookup → List PwAnswer
  | [] => []
  | q :: qs => (getPwent db cache q).1 :: getPwents db (getPwent db cache q).2 qs

/-! ## The database without a cache -/

/-- The answer of the database, with `nobody` for what it does not have. -/
def pwDirect (db : PwDb) : PwLookup → PwAnswer
  | .byName userkey =>
      match db.getpwnam userkey with
      | some uid => ⟨0, some uid.toNat, none⟩
      | none => ⟨-1, some ahsUidNobody.toNat, none⟩
  | .byId id =>
      match db.getpwuid id with
      | some cname => ⟨0, none, some cname⟩
      | none => ⟨-1, none, some ahsUsernameNobody⟩

/-- The answers to lookups from a set are those of the database. -/
def PwentTransparent (db : PwDb) (asked : Set PwLookup) : Prop :=
  ∀ qs, (∀ q ∈ qs, q ∈ asked) → getPwents db [] qs = qs.map (pwDirect db)

/-- The lookups for which the answers are right.  The empty name is not looked up.
For a name and an id that are both looked up, where the id is an `int`: the
database has the id for the name just when it has the name for the id, and the
name is not in the database and the id is the one of `nobody` just when the id is
not in the database and the name is `nobody`. -/
structure LookupsAgree (db : PwDb) (asked : Set PwLookup) : Prop where
  nonempty : .byName .empty ∉ asked
  known : ∀ name id, .byName name ∈ asked → .byId id ∈ asked → id.toNat < 2 ^ 31 →
    (db.getpwnam name = some id ↔ db.getpwuid id = some name)
  unknown : ∀ name id, .byName name ∈ asked → .byId id ∈ asked → id.toNat < 2 ^ 31 →
    ((db.getpwnam name = none ∧ id = ahsUidNobody) ↔
      (db.getpwuid id = none ∧ name = ahsUsernameNobody))

/-! ## The cache as a table of earlier answers -/

/-- The cell that is made for a lookup. -/
def pwCell (db : PwDb) : PwLookup → SysDbPair
  | .byName userkey =>
      match db.getpwnam userkey with
      | some uid => ⟨intOfId uid, userkey, 0⟩
      | none => ⟨intOfId ahsUidNobody, userkey, -1⟩
  | .byId id =>
      match db.getpwuid id with
      | some cname => ⟨intOfId id, cname, 0⟩
      | none => ⟨intOfId id, ahsUsernameNobody, -1⟩

/-- What the cells answer. -/
def pwCached (cache : DbCache) : PwLookup → Option PwAnswer
  | .byName userkey =>
      if 0 ≤ (returnIdByCache cache userkey).1 then
        some ⟨(returnIdByCache cache userkey).2, some (returnIdByCache cache userkey).1, none⟩
      else none
  | .byId id =>
      (returnNameByCache cache (intOfId id)).map fun found => ⟨found.2, none, some found.1⟩

theorem dbcacheLookup_singleton (pair : SysDbPair) (name : Option CString) (id : Int) :
    dbcacheLookup [pair] name id =
      if name = some pair.sname ∨ (0 ≤ id ∧ pair.id = id) then some pair else none := by
  rw [dbcacheLookup, List.find?_cons]
  split
  · next h => rw [if_pos (of_decide_eq_true h)]
  · next h => rw [if_neg (of_decide_eq_false h), List.find?_nil]

/-- What is found is found in one of the cells alone. -/
theorem dbcacheLookup_mem {cache : DbCache} {name : Option CString} {id : Int} {pair : SysDbPair}
    (h : dbcacheLookup cache name id = some pair) :
    pair ∈ cache ∧ dbcacheLookup [pair] name id = some pair := by
  have hhit := List.find?_some h
  refine ⟨List.mem_of_find?_eq_some h, ?_⟩
  rw [dbcacheLookup_singleton, if_pos (of_decide_eq_true hhit)]

theorem mem_dbcacheSet {cache : DbCache} {name : CString} {id inSys : Int} {pair : SysDbPair}
    (h : pair ∈ dbcacheSet cache name id inSys) : pair ∈ cache ∨ pair = ⟨id, name, inSys⟩ := by
  rw [dbcacheSet] at h
  split at h
  · exact .inr (List.mem_singleton.mp h)
  · exact (List.mem_append.mp h).imp_right List.mem_singleton.mp

theorem pwCached_mem {cache : DbCache} {q : PwLookup} {a : PwAnswer}
    (h : pwCached cache q = some a) : ∃ pair ∈ cache, pwCached [pair] q = some a := by
  cases q with
  | byName userkey =>
      rw [pwCached, returnIdByCache] at h
      cases hfound : dbcacheLookup cache (some userkey) (-1) with
      | none =>
          rw [hfound] at h
          exact absurd h (by simp)
      | some pair =>
          obtain ⟨hmem, hone⟩ := dbcacheLookup_mem hfound
          rw [hfound] at h
          refine ⟨pair, hmem, ?_⟩
          rw [pwCached, returnIdByCache, hone]
          exact h
  | byId id =>
      rw [pwCached, returnNameByCache] at h
      cases hfound : dbcacheLookup cache none (intOfId id) with
      | none =>
          rw [hfound] at h
          exact absurd h (by simp)
      | some pair =>
          obtain ⟨hmem, hone⟩ := dbcacheLookup_mem hfound
          rw [hfound] at h
          refine ⟨pair, hmem, ?_⟩
          rw [pwCached, returnNameByCache, hone]
          exact h

/-- The cache of a database. -/
def pwMemo (db : PwDb) : Memo PwLookup SysDbPair PwAnswer where
  direct := pwDirect db
  entry := pwCell db
  answer := pwCached
  keep cache pair := dbcacheSet cache pair.sname pair.id pair.inSys
  answer_nil q := by cases q <;> rfl
  answer_mem := pwCached_mem
  keep_nil _ := rfl
  mem_keep := mem_dbcacheSet

/-- But for the empty name, `get_pwent` asks the table. -/
theorem getPwent_eq_ask (db : PwDb) (cache : DbCache) {q : PwLookup} (hq : q ≠ .byName .empty) :
    getPwent db cache q = (pwMemo db).ask cache q := by
  cases q with
  | byName userkey =>
      have hlen : ¬ userkey.strlen = 0 := fun h => hq (congrArg _ (CString.strlen_eq_zero.mp h))
      rw [getPwent, if_neg hlen]
      by_cases hhit : 0 ≤ (returnIdByCache cache userkey).1
      · have hans : (pwMemo db).answer cache (.byName userkey) = some _ := if_pos hhit
        rw [Memo.ask_hit hans]
        exact if_pos hhit
      · have hans : (pwMemo db).answer cache (.byName userkey) = none := if_neg hhit
        rw [Memo.ask_miss hans]
        refine (if_neg hhit).trans ?_
        cases hfound : db.getpwnam userkey with
        | some uid => simp only [pwMemo, pwDirect, pwCell, hfound]
        | none => simp only [pwMemo, pwDirect, pwCell, hfound]
  | byId id =>
      rw [getPwent]
      cases hfound : returnNameByCache cache (intOfId id) with
      | some found =>
          have hans : (pwMemo db).answer cache (.byId id) = some _ :=
            congrArg (Option.map _) hfound
          rw [Memo.ask_hit hans]
      | none =>
          have hans : (pwMemo db).answer cache (.byId id) = none :=
            congrArg (Option.map _) hfound
          rw [Memo.ask_miss hans]
          cases hsys : db.getpwuid id with
          | some cname => simp only [pwMemo, pwDirect, pwCell, hsys]
          | none => simp only [pwMemo, pwDirect, pwCell, hsys]

theorem getPwents_eq_askAll (db : PwDb) (cache : DbCache) {qs : List PwLookup}
    (hqs : ∀ q ∈ qs, q ≠ .byName .empty) : getPwents db cache qs = (pwMemo db).askAll cache qs := by
  induction qs generalizing cache with
  | nil => rfl
  | cons q qs ih =>
      rw [getPwents, Memo.askAll, getPwent_eq_ask db cache (hqs q List.mem_cons_self),
        ih _ fun q hq => hqs q (List.mem_cons_of_mem _ hq)]

/-! ## What a cell answers -/

theorem intOfId_of_lt {id : UInt32} (h : id.toNat < 2 ^ 31) : intOfId id = id.toNat :=
  toCInt_of_lt h

/-- The ids from `2 ^ 31` on are negative. -/
theorem intOfId_nonneg_iff {id : UInt32} : 0 ≤ intOfId id ↔ id.toNat < 2 ^ 31 := by
  have hlt := id.toNat_lt
  have hmod : (id.toNat : Int) % 2 ^ 32 = id.toNat := Int.emod_eq_of_lt (by omega) (by omega)
  rcases toCInt_cases id.toNat with ⟨hsmall, heq⟩ | ⟨hlarge, heq⟩
  · rw [intOfId, heq, hmod]
    omega
  · rw [intOfId, heq, hmod]
    omega

theorem returnIdByCache_singleton (pair : SysDbPair) (name : CString) :
    returnIdByCache [pair] name = if name = pair.sname then (pair.id, pair.inSys) else (-1, 0) := by
  have hid : ¬ (0 ≤ (-1 : Int) ∧ pair.id = -1) := fun h => absurd h.1 (by decide)
  simp only [returnIdByCache, dbcacheLookup_singleton, or_iff_left hid, Option.some.injEq]
  by_cases h : name = pair.sname
  · simp only [if_pos h]
  · simp only [if_neg h]

theorem returnNameByCache_singleton (pair : SysDbPair) (id : Int) :
    returnNameByCache [pair] id =
      if 0 ≤ id ∧ pair.id = id then some (pair.sname, pair.inSys) else none := by
  have hname : ¬ none = some pair.sname := fun h => nomatch h
  rw [returnNameByCache, dbcacheLookup_singleton, apply_ite (Option.map _)]
  simp only [or_iff_right hname]
  rfl

theorem pwCached_byName {pair : SysDbPair} {userkey : CString} {a : PwAnswer} :
    pwCached [pair] (.byName userkey) = some a ↔
      userkey = pair.sname ∧ 0 ≤ pair.id ∧ a = ⟨pair.inSys, some pair.id, none⟩ := by
  rw [pwCached, returnIdByCache_singleton]
  split
  · next hname => simp [hname, eq_comm]
  · next hname => simp [hname]

theorem pwCached_byId {pair : SysDbPair} {id : UInt32} {a : PwAnswer} :
    pwCached [pair] (.byId id) = some a ↔
      id.toNat < 2 ^ 31 ∧ pair.id = intOfId id ∧ a = ⟨pair.inSys, none, some pair.sname⟩ := by
  rw [pwCached, returnNameByCache_singleton]
  split
  · next hid =>
      have hlt := intOfId_nonneg_iff.mp hid.1
      exact ⟨fun h => ⟨hlt, hid.2, (Option.some.inj h).symm⟩, fun h => congrArg some h.2.2.symm⟩
  · next hid =>
      refine iff_of_false (fun h => nomatch h) fun h => ?_
      exact hid ⟨intOfId_nonneg_iff.mpr h.1, h.2.1⟩

/-! ## Two lookups -/

variable {db : PwDb}

theorem intOfId_inj {i j : UInt32} (hi : i.toNat < 2 ^ 31) (h : intOfId j = intOfId i) : j = i := by
  have hj : j.toNat < 2 ^ 31 := by
    rw [← intOfId_nonneg_iff, h]
    exact intOfId_nonneg_iff.mpr hi
  rw [intOfId_of_lt hi, intOfId_of_lt hj] at h
  exact UInt32.toNat_inj.mp (Int.ofNat_inj.mp h)

theorem pwDirect_byName_found {name : CString} {id : UInt32} :
    pwDirect db (.byName name) = ⟨0, some id.toNat, none⟩ ↔ db.getpwnam name = some id := by
  rw [pwDirect]
  cases db.getpwnam name with
  | some uid => simp [UInt32.toNat_inj]
  | none => simp

theorem pwDirect_byName_missing {name : CString} {id : UInt32} :
    pwDirect db (.byName name) = ⟨-1, some id.toNat, none⟩ ↔
      db.getpwnam name = none ∧ id = ahsUidNobody := by
  rw [pwDirect]
  cases db.getpwnam name with
  | some uid => simp
  | none => simp [UInt32.toNat_inj, eq_comm]

theorem pwDirect_byId_found {name : CString} {id : UInt32} :
    pwDirect db (.byId id) = ⟨0, none, some name⟩ ↔ db.getpwuid id = some name := by
  rw [pwDirect]
  cases db.getpwuid id with
  | some cname => simp
  | none => simp

theorem pwDirect_byId_missing {name : CString} {id : UInt32} :
    pwDirect db (.byId id) = ⟨-1, none, some name⟩ ↔
      db.getpwuid id = none ∧ name = ahsUsernameNobody := by
  rw [pwDirect]
  cases db.getpwuid id with
  | some cname => simp
  | none => simp [eq_comm]

theorem compatible_iff {q q' : PwLookup} :
    (pwMemo db).Compatible q q' ↔ ∀ a, pwCached [pwCell db q] q' = some a → a = pwDirect db q' :=
  Iff.rfl

/-- A cell answers its name with its id. -/
theorem compatible_byName_iff {q : PwLookup} {name : CString} :
    (pwMemo db).Compatible q (.byName name) ↔
      (name = (pwCell db q).sname → 0 ≤ (pwCell db q).id →
        pwDirect db (.byName name) = ⟨(pwCell db q).inSys, some (pwCell db q).id, none⟩) := by
  rw [compatible_iff]
  constructor
  · intro hcompat hname hid
    exact (hcompat _ (pwCached_byName.mpr ⟨hname, hid, rfl⟩)).symm
  · intro hright a ha
    obtain ⟨hname, hid, rfl⟩ := pwCached_byName.mp ha
    exact (hright hname hid).symm

/-- A cell answers its id with its name. -/
theorem compatible_byId_iff {q : PwLookup} {id : UInt32} :
    (pwMemo db).Compatible q (.byId id) ↔
      (id.toNat < 2 ^ 31 → (pwCell db q).id = intOfId id →
        pwDirect db (.byId id) = ⟨(pwCell db q).inSys, none, some (pwCell db q).sname⟩) := by
  rw [compatible_iff]
  constructor
  · intro hcompat hlt hid
    exact (hcompat _ (pwCached_byId.mpr ⟨hlt, hid, rfl⟩)).symm
  · intro hright a ha
    obtain ⟨hlt, hid, rfl⟩ := pwCached_byId.mp ha
    exact (hright hlt hid).symm

theorem pwCell_byName_found {name : CString} {uid : UInt32} (h : db.getpwnam name = some uid) :
    pwCell db (.byName name) = ⟨intOfId uid, name, 0⟩ := by
  rw [pwCell, h]

theorem pwCell_byName_missing {name : CString} (h : db.getpwnam name = none) :
    pwCell db (.byName name) = ⟨intOfId ahsUidNobody, name, -1⟩ := by
  rw [pwCell, h]

theorem pwCell_byId_found {id : UInt32} {cname : CString} (h : db.getpwuid id = some cname) :
    pwCell db (.byId id) = ⟨intOfId id, cname, 0⟩ := by
  rw [pwCell, h]

theorem pwCell_byId_missing {id : UInt32} (h : db.getpwuid id = none) :
    pwCell db (.byId id) = ⟨intOfId id, ahsUsernameNobody, -1⟩ := by
  rw [pwCell, h]

theorem compatible_byName_byName (name name' : CString) :
    (pwMemo db).Compatible (.byName name) (.byName name') := by
  rw [compatible_byName_iff]
  cases h : db.getpwnam name with
  | some uid =>
      simp only [pwCell_byName_found h]
      rintro rfl hid
      rw [intOfId_of_lt (intOfId_nonneg_iff.mp hid)]
      exact pwDirect_byName_found.mpr h
  | none =>
      simp only [pwCell_byName_missing h]
      rintro rfl hid
      rw [intOfId_of_lt (intOfId_nonneg_iff.mp hid)]
      exact pwDirect_byName_missing.mpr ⟨h, rfl⟩

theorem compatible_byId_byId (id id' : UInt32) :
    (pwMemo db).Compatible (.byId id) (.byId id') := by
  rw [compatible_byId_iff]
  cases h : db.getpwuid id with
  | some cname =>
      simp only [pwCell_byId_found h]
      intro hlt hid
      rw [← intOfId_inj hlt hid]
      exact pwDirect_byId_found.mpr h
  | none =>
      simp only [pwCell_byId_missing h]
      intro hlt hid
      rw [← intOfId_inj hlt hid]
      exact pwDirect_byId_missing.mpr ⟨h, rfl⟩

/-- The cell of a name answers the id that the name has. -/
theorem compatible_byName_byId_iff (name : CString) (id : UInt32) :
    (pwMemo db).Compatible (.byName name) (.byId id) ↔
      (id.toNat < 2 ^ 31 →
        (db.getpwnam name = some id → db.getpwuid id = some name) ∧
        (db.getpwnam name = none ∧ id = ahsUidNobody →
          db.getpwuid id = none ∧ name = ahsUsernameNobody)) := by
  rw [compatible_byId_iff]
  refine forall_congr' fun hlt => ?_
  rcases Option.eq_none_or_eq_some (db.getpwnam name) with h | ⟨uid, h⟩
  · simp only [pwCell_byName_missing h, pwDirect_byId_missing]
    constructor
    · intro hcell
      refine ⟨fun huid => ?_, fun hnobody => hcell (congrArg intOfId hnobody.2.symm)⟩
      exact nomatch h.symm.trans huid
    · intro hright hid
      exact hright.2 ⟨h, (intOfId_inj hlt hid).symm⟩
  · simp only [pwCell_byName_found h, pwDirect_byId_found]
    constructor
    · intro hcell
      refine ⟨fun huid => ?_, fun hnobody => nomatch h.symm.trans hnobody.1⟩
      exact hcell (congrArg intOfId (Option.some.inj (h.symm.trans huid)))
    · intro hright hid
      exact hright.1 (h.trans (congrArg some (intOfId_inj hlt hid)))

/-- The cell of an id answers the name that the id has. -/
theorem compatible_byId_byName_iff (id : UInt32) (name : CString) :
    (pwMemo db).Compatible (.byId id) (.byName name) ↔
      (id.toNat < 2 ^ 31 →
        (db.getpwuid id = some name → db.getpwnam name = some id) ∧
        (db.getpwuid id = none ∧ name = ahsUsernameNobody →
          db.getpwnam name = none ∧ id = ahsUidNobody)) := by
  rw [compatible_byName_iff, forall_comm]
  rcases Option.eq_none_or_eq_some (db.getpwuid id) with h | ⟨cname, h⟩
  · simp only [pwCell_byId_missing h, intOfId_nonneg_iff]
    refine forall_congr' fun hlt => ?_
    rw [intOfId_of_lt hlt, pwDirect_byName_missing]
    constructor
    · intro hcell
      exact ⟨fun hname => (nomatch h.symm.trans hname), fun hnobody => hcell hnobody.2⟩
    · intro hright hname
      exact hright.2 ⟨h, hname⟩
  · simp only [pwCell_byId_found h, intOfId_nonneg_iff]
    refine forall_congr' fun hlt => ?_
    rw [intOfId_of_lt hlt, pwDirect_byName_found]
    constructor
    · intro hcell
      refine ⟨fun hname => ?_, fun hnobody => nomatch h.symm.trans hnobody.1⟩
      exact hcell (Option.some.inj (h.symm.trans hname)).symm
    · intro hright hname
      exact hright.1 (h.trans (congrArg some hname.symm))

/-! ## Every sequence of lookups -/

theorem pwentTransparent_iff_memo {asked : Set PwLookup} (hne : .byName .empty ∉ asked) :
    PwentTransparent db asked ↔ (pwMemo db).Transparent asked := by
  refine forall_congr' fun qs => forall_congr' fun hqs => ?_
  rw [getPwents_eq_askAll db [] fun q hq hempty => hne (hempty ▸ hqs q hq)]
  rfl

/-- The answers are those of the database just when the lookups agree. -/
theorem pwentTransparent_iff (db : PwDb) (asked : Set PwLookup) :
    PwentTransparent db asked ↔ LookupsAgree db asked := by
  constructor
  · intro htrans
    have hne : .byName .empty ∉ asked := by
      intro hmem
      have hrun := htrans [.byName .empty] fun q hq => (List.mem_singleton.mp hq) ▸ hmem
      have hid := congrArg PwAnswer.ppid (List.cons.inj hrun).1
      change none = (pwDirect db (.byName .empty)).ppid at hid
      rw [pwDirect] at hid
      cases h : db.getpwnam .empty with
      | some uid =>
          rw [h] at hid
          exact nomatch hid
      | none =>
          rw [h] at hid
          exact nomatch hid
    have hcompat := Memo.transparent_iff.mp ((pwentTransparent_iff_memo hne).mp htrans)
    refine ⟨hne, fun name id hname hid hlt => ?_, fun name id hname hid hlt => ?_⟩
    · have hto := (compatible_byName_byId_iff name id).mp (hcompat _ hname _ hid) hlt
      have hfrom := (compatible_byId_byName_iff id name).mp (hcompat _ hid _ hname) hlt
      exact ⟨hto.1, hfrom.1⟩
    · have hto := (compatible_byName_byId_iff name id).mp (hcompat _ hname _ hid) hlt
      have hfrom := (compatible_byId_byName_iff id name).mp (hcompat _ hid _ hname) hlt
      exact ⟨hto.2, hfrom.2⟩
  · intro hagree
    rw [pwentTransparent_iff_memo hagree.nonempty, Memo.transparent_iff]
    intro q hq q' hq'
    cases q with
    | byName name =>
        cases q' with
        | byName name' => exact compatible_byName_byName name name'
        | byId id =>
            rw [compatible_byName_byId_iff]
            intro hlt
            exact ⟨(hagree.known name id hq hq' hlt).mp, (hagree.unknown name id hq hq' hlt).mp⟩
    | byId id =>
        cases q' with
        | byName name =>
            rw [compatible_byId_byName_iff]
            intro hlt
            exact ⟨(hagree.known name id hq' hq hlt).mpr, (hagree.unknown name id hq' hq hlt).mpr⟩
        | byId id' => exact compatible_byId_byId id id'

/-- A database with the user `nobody` alone. -/
def nobodyDb : PwDb where
  getpwnam name := if name = ahsUsernameNobody then some 65534 else none
  getpwuid id := if id = 65534 then some ahsUsernameNobody else none

/-- After the id 5 was not found, `nobody` is not found and has the id 5. -/
theorem not_pwentTransparent_nobody : ¬ PwentTransparent nobodyDb Set.univ := by
  intro htrans
  have hrun := htrans [.byId 5, .byName ahsUsernameNobody] fun _ _ => Set.mem_univ _
  have hret := congrArg (List.map PwAnswer.ret) hrun
  exact absurd hret (by decide)

end Swbis.Taru
