import Swbis.Lib.Strtol
import Swbis.Taru.SigBlock

/-!
# The verification of an archive

`taruib_write_signedfile_if` forks a child that takes the catalog apart: the
recorded attributes come back through one pipe each, the signature through
another, and the signed stream through a third from which the parent calculates
the digests.  The parent then compares, writes the signature file and emits the
catalog.

A `SignedPackage` holds what the function is given and what its surroundings
answer: the recorded attributes as the pipes deliver them, that is with the
padding of the archive member, the calculated digests, the end of the child, and
which of the calls of the system fail.
-/

namespace Swbis.Taru

open CLib

/-! ## What the function is given -/

/-- The calls whose failure `taruib_write_signedfile_if` looks at. -/
inductive VerifyFault where
  | seekStart | readCatalog | rewind | fork | digests
  | readMd5 | readSha1 | readSha512 | readSize | readSig
  | rewindSig | openSigfile | rewindArchive
deriving DecidableEq

/-- A digit that `sprintf ("%02x")` prints. -/
def isHexChar (b : UInt8) : Bool :=
  (decide (48 ≤ b) && decide (b ≤ 57)) || (decide (97 ≤ b) && decide (b ≤ 102))

/-- A calculated digest of `n` hexadecimal digits. -/
structure HexDigest (n : Nat) where
  /-- The digits. -/
  bytes : Bytes
  /-- There are `n` of them. -/
  len : bytes.length = n
  /-- They are digits. -/
  hex : ∀ b ∈ bytes, isHexChar b = true

theorem HexDigest.noNul {n : Nat} (d : HexDigest n) : (0 : UInt8) ∉ d.bytes := by
  intro h
  exact absurd (d.hex 0 h) (by decide)

/-- The digest as a string. -/
def HexDigest.str {n : Nat} (d : HexDigest n) : CString := ⟨d.bytes, d.noNul⟩

/-- How the child goes: the return of `taruib_write_signedfile_if_i`, whether one
of the two copies of the data fails, and, when a signal ends it, whether it had
emptied the signature file before. -/
structure VerifyChild where
  /-- The return of `taruib_write_signedfile_if_i`. -/
  cret : Int
  /-- `xformat_copy_pass2` fails. -/
  copyFails : Bool
  /-- `taruib_write_pass_files` fails. -/
  passFails : Bool
  /-- A signal ends it. -/
  killed : Option Bool

/-- The exit status of the child, none when a signal ends it, and whether it has
emptied the signature file. -/
def VerifyChild.exit (c : VerifyChild) : Option Nat × Bool :=
  match c.killed with
  | some truncated => (none, truncated)
  | none =>
      if c.cret ≤ 0 then (some (if c.cret = 0 then 120 else 121), true)
      else if c.copyFails then (some 122, true)
      else if c.passFails then (some 123, false)
      else if c.cret = 512 then (some 11, false)
      else if c.cret = 1024 then (some 13, false)
      else (some 124, false)

/-- One call of `taruib_write_signedfile_if`. -/
structure SignedPackage where
  /-- Which calls fail. -/
  fails : VerifyFault → Bool
  /-- What the pipe of the recorded md5 delivers, if there is one. -/
  md5 : Option Bytes
  /-- The recorded sha1. -/
  sha1 : Option Bytes
  /-- The recorded sha512. -/
  sha512 : Option Bytes
  /-- The recorded size. -/
  size : Option Bytes
  /-- `calc_md5digbuf` -/
  calcMd5 : HexDigest 32
  /-- `calc_sha1digbuf` -/
  calcSha1 : HexDigest 40
  /-- `calc_sha512digbuf` -/
  calcSha512 : HexDigest 128
  /-- The number of bytes that were digested. -/
  calcSize : Nat
  /-- It fits in an `intmax_t`. -/
  calcSizeLt : calcSize < 2 ^ 63
  /-- The child. -/
  child : VerifyChild
  /-- The signature data. -/
  sig : Bytes
  /-- `whichsig` -/
  whichsig : Int
  /-- The signature file before the call. -/
  sigfile : Bytes
  /-- The return of `taruib_write_catalog_stream`. -/
  catalogRet : Int

/-! ## The buffers -/

/-- What `safeio (read, fd, buf, 513)` puts into a cleared buffer. -/
def pipeRead (d : Option Bytes) : Bytes := (d.getD []).take 513

/-- A read that delivered something, and less than `n` bytes. -/
def shortRead (n : Nat) (d : Option Bytes) : Bool :=
  decide (0 < (pipeRead d).length) && decide ((pipeRead d).length < n)

/-- The string in a digest buffer after `buf[n] = '\0'`. -/
def digestBuf (n : Nat) (d : Option Bytes) : CString := CString.ofMem ((pipeRead d).take n)

/-- `swlib_squash_all_trailing_vnewline`, on the reversed string: newlines, each
with at most one carriage return before it. -/
def squashVnewlineRev : Bytes → Bytes
  | 10 :: 13 :: s => squashVnewlineRev s
  | 10 :: s => squashVnewlineRev s
  | s => s

/-- `swlib_squash_all_trailing_vnewline`. -/
def squashAllTrailingVnewline (s : Bytes) : Bytes := (squashVnewlineRev s.reverse).reverse

/-- The string in `sizebuf`. -/
def sizeBuf (d : Option Bytes) : Bytes :=
  squashAllTrailingVnewline (CString.ofMem (pipeRead d)).bytes

/-! ## Before the comparison -/

/-- An error return, and the signature file it leaves. -/
structure VerifyStop where
  /-- The return value. -/
  code : Int
  /-- The signature file. -/
  sigfile : Bytes

/-- `if (fires) return code;` -/
def gate (fires : Bool) (code : Int) (sigfile : Bytes) : Except VerifyStop Unit :=
  if fires then .error ⟨code, sigfile⟩ else .ok ()

namespace SignedPackage

variable (v : SignedPackage)

/-- The signature file when the child is done. -/
def leftByChild : Bytes := if v.child.exit.2 then [] else v.sigfile

/-- Up to the fork. -/
def beforeFork : Except VerifyStop Unit := do
  gate (v.fails .seekStart) 1 v.sigfile
  gate (v.fails .readCatalog) 2 v.sigfile
  gate (v.fails .rewind) 3 v.sigfile
  gate (v.fails .fork) 1 v.sigfile

/-- The recorded attributes are read.  The length that is looked at after the
sha1 and the sha512 have been read is that of the sha512. -/
def readRecorded : Except VerifyStop Unit := do
  gate (v.fails .readMd5) 4 []
  gate (shortRead 32 v.md5) 5 []
  gate (v.fails .readSha1) 6 []
  gate (v.fails .readSha512) 10 []
  gate (shortRead 40 v.sha512) 7 []
  gate (v.fails .readSize) 16 []
  gate (shortRead 30 v.size) 17 []

/-- The wait for the child, whose exit status is the size of the signature. -/
def waitChild : Except VerifyStop Nat :=
  match v.child.exit.1 with
  | none => .error ⟨9, v.leftByChild⟩
  | some status =>
      if status = 10 then .error ⟨12, v.leftByChild⟩
      else if status = 11 then .ok 512
      else if status = 13 then .ok 1024
      else .error ⟨13, v.leftByChild⟩

/-- Everything before the comparison: the size of the signature, or a stop. -/
def beforeCompare : Except VerifyStop Nat := do
  v.beforeFork
  gate (v.fails .digests) 15 v.leftByChild
  v.readRecorded
  gate (v.fails .readSig) 18 v.leftByChild
  gate (v.fails .rewindSig) 8 []
  v.waitChild

end SignedPackage

/-! ## The comparison -/

/-- `strncmp (s, t, n) == 0`. -/
def strncmpEq (s t : CString) (n : Nat) : Bool := s.bytes.take n == t.bytes.take n

/-- The test for a digest that is right. -/
def digestGood {n : Nat} (digest : HexDigest n) (buf : CString) : Bool :=
  buf.strlen == n && strncmpEq digest.str buf n

/-- An optional digest: one that is not right only counts when it is not empty. -/
def compareDigest {n : Nat} (digest : HexDigest n) (buf : CString) (priRet : Int) : Int :=
  if digestGood digest buf then priRet
  else if buf.strlen ≠ 0 then 1
  else priRet

/-- The comparison of the sizes.  The second sanity check takes the distance from
`calc_size`, where the end pointer no longer points, and never fires. -/
def compareSize (calcSize : Nat) (sizebuf : Bytes) (priRet : Int) : Int :=
  if sizebuf.length ≠ 0 then
    let actual := strtoul (decimal.render calcSize)
    let priRet :=
      if actual.2.2.length = (decimal.render calcSize).length ∨ actual.1 = 0 then 1 else priRet
    let claimed := strtoul sizebuf
    let priRet := if claimed.1 = 0 then 1 else priRet
    if claimed.1 ≠ actual.1 then 1 else priRet
  else priRet

namespace SignedPackage

variable (v : SignedPackage)

/-- `pri_ret` after the four comparisons. -/
def priRet : Int :=
  let priRet := if digestGood v.calcMd5 (digestBuf 32 v.md5) then 0 else 2
  let priRet := compareDigest v.calcSha1 (digestBuf 40 v.sha1) priRet
  let priRet := compareSize v.calcSize (sizeBuf v.size) priRet
  compareDigest v.calcSha512 (digestBuf 128 v.sha512) priRet

end SignedPackage

/-! ## The function -/

/-- What a call leaves. -/
structure SignedfileResult where
  /-- The return value. -/
  ret : Int
  /-- The signature file. -/
  sigfile : Bytes
  /-- The catalog is emitted. -/
  emitted : Bool

/-- The signature part of the accepting branch: `pri_ret`, and the signature
file.  A check that does not return leaves the signature file empty as well. -/
def writeCheckedSig (sig : Bytes) (sigsize : Nat) (whichsig : Int) : Int × Bytes :=
  match (doSigSafetyChecks sig sigsize whichsig).result with
  | .error _ => (10, [])
  | .ok _ => (0, (writeSelectedSig sig sigsize whichsig).flatMap (·.bytes))

/-- `taruib_write_signedfile_if`. -/
def taruibWriteSignedfileIf (v : SignedPackage) : SignedfileResult :=
  match v.beforeCompare with
  | .error stop => ⟨stop.code, stop.sigfile, false⟩
  | .ok sigsize =>
      if v.fails .openSigfile then ⟨14, v.leftByChild, false⟩
      else if v.priRet = 0 then
        let r := writeCheckedSig v.sig sigsize v.whichsig
        if v.fails .rewindArchive then ⟨10, r.2, false⟩
        else ⟨if v.catalogRet ≤ 0 then 9 else r.1, r.2, true⟩
      else ⟨v.priRet, [], false⟩

/-! ## What the decision is to be -/

/-- The attribute records `t`: nothing follows but the end of the line and the
padding. -/
def Records (d t : Bytes) : Prop :=
  ∃ eol pad, d = t ++ eol ++ List.replicate pad 0 ∧ ∀ b ∈ eol, b = 10 ∨ b = 13

/-- The child has passed everything on, and found a signature of one of the two
sizes. -/
structure VerifyChild.Done (c : VerifyChild) : Prop where
  /-- It ends by itself. -/
  killed : c.killed = none
  /-- The data was copied. -/
  copied : c.copyFails = false
  /-- The rest was copied. -/
  passed : c.passFails = false
  /-- The size of the signature. -/
  size : c.cret = 512 ∨ c.cret = 1024

/-- There is signature data, and it passes its checks. -/
def SignedPackage.SigChecked (v : SignedPackage) : Prop :=
  v.child.Done ∧ (doSigSafetyChecks v.sig v.child.cret.toNat v.whichsig).result = .ok ()

/-- A package that is to be accepted. -/
structure Acceptable (v : SignedPackage) : Prop where
  /-- The md5 is recorded, and is the calculated one. -/
  md5 : ∃ d, v.md5 = some d ∧ Records d v.calcMd5.bytes
  /-- A recorded sha1 is the calculated one. -/
  sha1 : ∀ d, v.sha1 = some d → Records d v.calcSha1.bytes
  /-- A recorded sha512 is the calculated one. -/
  sha512 : ∀ d, v.sha512 = some d → Records d v.calcSha512.bytes
  /-- A recorded size is the calculated one, in decimal. -/
  size : ∀ d, v.size = some d → ∃ t, Records d t ∧ t ≠ [] ∧
    (∀ b ∈ t, decimal.isDigit b = true) ∧ decimal.value t = v.calcSize
  /-- The signature data passes its checks. -/
  sig : v.SigChecked

/-- The decision is right: only an acceptable package is accepted, or has its
catalog emitted, and any other is refused with an empty signature file. -/
structure Decides (v : SignedPackage) : Prop where
  /-- Success is for acceptable packages. -/
  returns : (taruibWriteSignedfileIf v).ret = 0 → Acceptable v
  /-- So is the catalog. -/
  emits : (taruibWriteSignedfileIf v).emitted = true → Acceptable v
  /-- Other packages are refused. -/
  refuses : ¬ Acceptable v →
    (taruibWriteSignedfileIf v).ret ≠ 0 ∧ (taruibWriteSignedfileIf v).sigfile = []

/-! ## The error returns -/

/-- A stop is an error return, and leaves the signature file as told. -/
def VerifyStop.Leaves (stop : VerifyStop) (sigfile : Bytes) : Prop :=
  stop.code ≠ 0 ∧ stop.sigfile = sigfile

theorem VerifyStop.Leaves.of_code {code : Int} {sigfile : Bytes} (h : code ≠ 0) :
    VerifyStop.Leaves ⟨code, sigfile⟩ sigfile := ⟨h, rfl⟩

/-- A stage that stops, and leaves `sigfile`, exactly when `P` holds. -/
def Stage {α : Type} (P : Prop) (m : Except VerifyStop α) (a : α) (sigfile : Bytes) : Prop :=
  (P ∧ ∃ stop, m = .error stop ∧ stop.Leaves sigfile) ∨ (¬ P ∧ m = .ok a)

theorem gate_stage (fires : Bool) {code : Int} (hcode : code ≠ 0) (sigfile : Bytes) :
    Stage (fires = true) (gate fires code sigfile) () sigfile := by
  cases fires with
  | false => exact .inr ⟨by simp, rfl⟩
  | true => exact .inl ⟨rfl, _, rfl, .of_code hcode⟩

/-- Stages that leave the same file compose. -/
theorem Stage.bind {α : Type} {P Q : Prop} {m : Except VerifyStop Unit}
    {k : Except VerifyStop α} {a : α} {sigfile : Bytes} (hm : Stage P m () sigfile)
    (hk : Stage Q k a sigfile) : Stage (P ∨ Q) (m >>= fun _ => k) a sigfile := by
  rcases hm with ⟨hp, stop, rfl, hl⟩ | ⟨hp, rfl⟩
  · exact .inl ⟨.inl hp, stop, rfl, hl⟩
  · rcases hk with ⟨hq, stop, rfl, hl⟩ | ⟨hq, rfl⟩
    · exact .inl ⟨.inr hq, stop, rfl, hl⟩
    · exact .inr ⟨fun h => h.elim hp hq, rfl⟩

/-- The exit status tells whether the child has done its part. -/
theorem VerifyChild.exit_cases (c : VerifyChild) :
    (c.Done ∧ (c.cret = 512 ∧ c.exit.1 = some 11 ∨ c.cret = 1024 ∧ c.exit.1 = some 13)) ∨
      (¬ c.Done ∧ ∀ status, c.exit.1 = some status → 120 ≤ status) := by
  unfold VerifyChild.exit
  split
  next truncated hk => exact .inr ⟨fun hd => by simp [hd.killed] at hk, by simp⟩
  next hk =>
    split
    next hle =>
      refine .inr ⟨fun hd => by have := hd.size; omega, ?_⟩
      split <;> simp
    next hgt =>
      split
      next hc => exact .inr ⟨fun hd => by simp [hd.copied] at hc, by simp⟩
      next hc =>
        split
        next hp => exact .inr ⟨fun hd => by simp [hd.passed] at hp, by simp⟩
        next hp =>
          have hdone (hsize : c.cret = 512 ∨ c.cret = 1024) : c.Done :=
            ⟨hk, by simpa using hc, by simpa using hp, hsize⟩
          split
          next h512 => exact .inl ⟨hdone (.inl h512), .inl ⟨h512, rfl⟩⟩
          next h512 =>
            split
            next h1024 => exact .inl ⟨hdone (.inr h1024), .inr ⟨h1024, rfl⟩⟩
            next h1024 => exact .inr ⟨fun hd => hd.size.elim h512 h1024, by simp⟩

namespace SignedPackage

variable (v : SignedPackage)

/-- A call fails before the fork. -/
def FailsEarly : Prop :=
  v.fails .seekStart = true ∨ v.fails .readCatalog = true ∨ v.fails .rewind = true ∨
    v.fails .fork = true

instance : Decidable v.FailsEarly := inferInstanceAs (Decidable (_ ∨ _))

/-- A recorded attribute cannot be read, or is too short. -/
def RefusesRecorded : Prop :=
  v.fails .readMd5 = true ∨ shortRead 32 v.md5 = true ∨ v.fails .readSha1 = true ∨
    v.fails .readSha512 = true ∨ shortRead 40 v.sha512 = true ∨ v.fails .readSize = true ∨
    shortRead 30 v.size = true

theorem beforeFork_stage : Stage v.FailsEarly v.beforeFork () v.sigfile :=
  (gate_stage _ (by decide) _).bind <| (gate_stage _ (by decide) _).bind <|
    (gate_stage _ (by decide) _).bind <| gate_stage _ (by decide) _

theorem readRecorded_stage : Stage v.RefusesRecorded v.readRecorded () [] :=
  (gate_stage _ (by decide) _).bind <| (gate_stage _ (by decide) _).bind <|
    (gate_stage _ (by decide) _).bind <| (gate_stage _ (by decide) _).bind <|
    (gate_stage _ (by decide) _).bind <| (gate_stage _ (by decide) _).bind <|
    gate_stage _ (by decide) _

theorem waitChild_stage :
    Stage (¬ v.child.Done) v.waitChild v.child.cret.toNat v.leftByChild := by
  unfold waitChild
  rcases v.child.exit_cases with ⟨hd, ⟨hc, he⟩ | ⟨hc, he⟩⟩ | ⟨hd, he⟩
  · rw [he, hc]
    exact .inr ⟨fun h => h hd, rfl⟩
  · rw [he, hc]
    exact .inr ⟨fun h => h hd, rfl⟩
  · refine .inl ⟨hd, ?_⟩
    cases hs : v.child.exit.1 with
    | none => exact ⟨_, rfl, .of_code (by decide)⟩
    | some status =>
        have hge := he status hs
        simp only
        rw [if_neg (by omega), if_neg (by omega), if_neg (by omega)]
        exact ⟨_, rfl, .of_code (by decide)⟩

/-- The error returns before the comparison that leave the signature file
alone. -/
def StopsKeeping : Prop :=
  v.FailsEarly ∨ v.fails .digests = true ∨
    (¬ v.RefusesRecorded ∧
      (v.fails .readSig = true ∨ (v.fails .rewindSig = false ∧ ¬ v.child.Done)))

/-- The error returns before the comparison that empty it. -/
def StopsEmptying : Prop :=
  ¬ v.FailsEarly ∧ v.fails .digests = false ∧
    (v.RefusesRecorded ∨ (v.fails .readSig = false ∧ v.fails .rewindSig = true))

/-- The run gets to the comparison. -/
structure Compares : Prop where
  /-- Nothing fails before the fork. -/
  early : ¬ v.FailsEarly
  /-- The digests are calculated. -/
  digests : v.fails .digests = false
  /-- The attributes are read. -/
  recorded : ¬ v.RefusesRecorded
  /-- The signature is read. -/
  readSig : v.fails .readSig = false
  /-- Its memory file is rewound. -/
  rewindSig : v.fails .rewindSig = false
  /-- The child has done its part. -/
  done : v.child.Done

/-- What is in the signature file after an error return that leaves it alone. -/
def keptSigfile : Bytes := if v.FailsEarly then v.sigfile else v.leftByChild

/-- How the part before the comparison ends. -/
theorem beforeCompare_cases :
    (v.StopsKeeping ∧ ∃ stop, v.beforeCompare = .error stop ∧ stop.Leaves v.keptSigfile) ∨
      (v.StopsEmptying ∧ ∃ stop, v.beforeCompare = .error stop ∧ stop.Leaves []) ∨
      (v.Compares ∧ v.beforeCompare = .ok v.child.cret.toNat) := by
  unfold beforeCompare keptSigfile
  rcases v.beforeFork_stage with ⟨he, stop, hs, hl⟩ | ⟨he, hs⟩
  · rw [hs, if_pos he]
    exact .inl ⟨.inl he, stop, rfl, hl⟩
  rw [hs, if_neg he]
  rcases gate_stage (v.fails .digests) (show (15 : Int) ≠ 0 by decide) v.leftByChild with
    ⟨hd, stop, hs, hl⟩ | ⟨hd, hs⟩
  · rw [hs]
    exact .inl ⟨.inr (.inl hd), stop, rfl, hl⟩
  rw [Bool.not_eq_true] at hd
  rw [hs]
  rcases v.readRecorded_stage with ⟨hr, stop, hs, hl⟩ | ⟨hr, hs⟩
  · rw [hs]
    exact .inr (.inl ⟨⟨he, hd, .inl hr⟩, stop, rfl, hl⟩)
  rw [hs]
  rcases gate_stage (v.fails .readSig) (show (18 : Int) ≠ 0 by decide) v.leftByChild with
    ⟨hg, stop, hs, hl⟩ | ⟨hg, hs⟩
  · rw [hs]
    exact .inl ⟨.inr (.inr ⟨hr, .inl hg⟩), stop, rfl, hl⟩
  rw [Bool.not_eq_true] at hg
  rw [hs]
  rcases gate_stage (v.fails .rewindSig) (show (8 : Int) ≠ 0 by decide) [] with
    ⟨hw, stop, hs, hl⟩ | ⟨hw, hs⟩
  · rw [hs]
    exact .inr (.inl ⟨⟨he, hd, .inr ⟨hg, hw⟩⟩, stop, rfl, hl⟩)
  rw [Bool.not_eq_true] at hw
  rw [hs]
  rcases v.waitChild_stage with ⟨hc, stop, hs, hl⟩ | ⟨hc, hs⟩
  · exact .inl ⟨.inr (.inr ⟨hr, .inr ⟨hw, hc⟩⟩), stop, hs, hl⟩
  · exact .inr (.inr ⟨⟨he, hd, hr, hg, hw, not_not.mp hc⟩, hs⟩)

end SignedPackage

/-! ## The comparison in terms of what is compared -/

theorem digestGood_iff {n : Nat} (digest : HexDigest n) (buf : CString) :
    digestGood digest buf = true ↔ buf.bytes = digest.bytes := by
  have hlen : (digest.bytes.take n) = digest.bytes := List.take_of_length_le digest.len.le
  unfold digestGood strncmpEq CString.strlen HexDigest.str
  simp only [Bool.and_eq_true, beq_iff_eq, hlen]
  constructor
  · rintro ⟨hn, he⟩
    rw [he, List.take_of_length_le hn.le]
  · intro he
    rw [he]
    exact ⟨digest.len, hlen.symm⟩

theorem compareDigest_eq_zero {n : Nat} (digest : HexDigest n) (buf : CString) (priRet : Int) :
    compareDigest digest buf priRet = 0 ↔
      priRet = 0 ∧ (buf.bytes = [] ∨ buf.bytes = digest.bytes) := by
  unfold compareDigest
  split
  next hg => simp [(digestGood_iff digest buf).mp hg]
  next hg =>
    rw [digestGood_iff] at hg
    split
    next hne =>
      have : buf.bytes ≠ [] := fun h => hne (by rw [CString.strlen, h]; rfl)
      simp [hg, this]
    next he =>
      have : buf.bytes = [] := List.length_eq_zero_iff.mp (not_not.mp he)
      simp [this]

theorem compareSize_eq_zero {calcSize : Nat} (hlt : calcSize < 2 ^ 63) (sizebuf : Bytes)
    (priRet : Int) :
    compareSize calcSize sizebuf priRet = 0 ↔
      priRet = 0 ∧ (sizebuf = [] ∨
        (calcSize ≠ 0 ∧ (strtoul sizebuf).1 = UInt64.ofNat calcSize)) := by
  have hread := strtoul_render_nil (show calcSize < 2 ^ 64 by omega)
  have hrender := decimal.render_ne_nil calcSize
  have hzero : UInt64.ofNat calcSize = 0 ↔ calcSize = 0 := by
    rw [← UInt64.toNat_inj, UInt64.toNat_ofNat_of_lt' (by rw [UInt64.size]; omega)]
    rfl
  unfold compareSize
  by_cases hs : sizebuf = []
  · simp [hs]
  · have hne : sizebuf.length ≠ 0 := fun h => hs (List.length_eq_zero_iff.mp h)
    have hrlen : ¬ ([] : Bytes).length = (decimal.render calcSize).length :=
      fun h => hrender (List.length_eq_zero_iff.mp h.symm)
    simp only [if_pos hne, hread, hrlen, false_or, hzero, hs]
    by_cases he : (strtoul sizebuf).1 = UInt64.ofNat calcSize
    · by_cases h0 : calcSize = 0
      · simp [he, h0]
      · simp [he, hzero, h0]
    · simp [he]

/-- What the comparison asks for. -/
structure Matches (v : SignedPackage) : Prop where
  /-- The md5 begins with the calculated one. -/
  md5 : (digestBuf 32 v.md5).bytes = v.calcMd5.bytes
  /-- The sha1 is empty, or begins with the calculated one. -/
  sha1 : (digestBuf 40 v.sha1).bytes = [] ∨ (digestBuf 40 v.sha1).bytes = v.calcSha1.bytes
  /-- The size is empty, or begins with the calculated one, which is not zero. -/
  size : sizeBuf v.size = [] ∨
    (v.calcSize ≠ 0 ∧ (strtoul (sizeBuf v.size)).1 = UInt64.ofNat v.calcSize)
  /-- The sha512 is empty, or begins with the calculated one. -/
  sha512 : (digestBuf 128 v.sha512).bytes = [] ∨
    (digestBuf 128 v.sha512).bytes = v.calcSha512.bytes

theorem priRet_eq_zero (v : SignedPackage) : v.priRet = 0 ↔ Matches v := by
  have hmd5 : (if digestGood v.calcMd5 (digestBuf 32 v.md5) then (0 : Int) else 2) = 0 ↔
      (digestBuf 32 v.md5).bytes = v.calcMd5.bytes := by
    rw [← digestGood_iff]
    split <;> simp [*]
  unfold SignedPackage.priRet
  simp only [compareDigest_eq_zero, compareSize_eq_zero v.calcSizeLt, hmd5]
  exact ⟨fun ⟨⟨⟨h1, h2⟩, h3⟩, h4⟩ => ⟨h1, h2, h3, h4⟩, fun ⟨h1, h2, h3, h4⟩ => ⟨⟨⟨h1, h2⟩, h3⟩, h4⟩⟩

/-! ## What an accepted signature leaves -/

/-- Signature data that passes its checks is a number of whole blocks. -/
theorem length_of_sigChecked {sig : Bytes} {sigsize : Nat} {whichsig : Int}
    (hok : (doSigSafetyChecks sig sigsize whichsig).result = .ok ()) :
    sig.length = sig.length / sigsize * sigsize := by
  rw [doSigSafetyChecks] at hok
  split at hok
  · cases hok
  · split at hok
    · cases hok
    · split at hok
      · cases hok
      next hmod =>
        have := Nat.div_add_mod' sig.length sigsize
        omega

/-- Signature data that passes its checks is written out, and is not empty. -/
theorem flatMap_writeSelectedSig_ne_nil {sig : Bytes} {sigsize : Nat} {whichsig : Int}
    (hs : 0 < sigsize) (hok : (doSigSafetyChecks sig sigsize whichsig).result = .ok ()) :
    (writeSelectedSig sig sigsize whichsig).flatMap (·.bytes) ≠ [] := by
  obtain ⟨h1, hle, off, hoff, hin⟩ := firstBlock_of_ok hs (length_of_sigChecked hok) hok
  unfold writeSelectedSig
  generalize selectedSigs (sig.length / sigsize) whichsig = sigs at h1 hle hoff ⊢
  obtain ⟨hge, hgt⟩ := writeSelectedSigI_takes sig sigs.1 hs hoff (by omega)
  rw [writeSigs, if_pos hle, if_neg (by omega), List.flatMap_cons]
  intro hnil
  have hbytes := congrArg List.length (List.append_eq_nil_iff.mp hnil).1
  rw [List.length_nil] at hbytes
  omega

/-! ## How the function ends -/

/-- An error return that does not emit the catalog. -/
structure StopsWith (v : SignedPackage) (sigfile : Bytes) : Prop where
  /-- It is an error return. -/
  ret : (taruibWriteSignedfileIf v).ret ≠ 0
  /-- Nothing is emitted. -/
  emitted : (taruibWriteSignedfileIf v).emitted = false
  /-- What is in the signature file. -/
  sigfile : (taruibWriteSignedfileIf v).sigfile = sigfile

/-- An error return decides right when the package is acceptable, or the
signature file is empty. -/
theorem StopsWith.decides_iff {v : SignedPackage} {sigfile : Bytes} (h : StopsWith v sigfile) :
    Decides v ↔ Acceptable v ∨ sigfile = [] := by
  constructor
  · intro hd
    by_cases ha : Acceptable v
    · exact .inl ha
    · exact .inr (h.sigfile ▸ (hd.refuses ha).2)
  · intro hor
    refine ⟨fun h0 => absurd h0 h.ret, fun he => by simp [h.emitted] at he, fun ha => ⟨h.ret, ?_⟩⟩
    rw [h.sigfile]
    exact hor.resolve_left ha

theorem stopsWith_of_leaves {v : SignedPackage} {stop : VerifyStop} {sigfile : Bytes}
    (hs : v.beforeCompare = .error stop) (hl : stop.Leaves sigfile) : StopsWith v sigfile := by
  obtain ⟨hcode, rfl⟩ := hl
  constructor <;> simp [taruibWriteSignedfileIf, hs, hcode]

section

variable {v : SignedPackage} {sigsize : Nat} (hs : v.beforeCompare = .ok sigsize)
include hs

theorem stopsWith_of_openSigfile (ho : v.fails .openSigfile = true) :
    StopsWith v v.leftByChild := by
  constructor <;> simp [taruibWriteSignedfileIf, hs, ho]

theorem stopsWith_of_mismatch (ho : v.fails .openSigfile = false) (hm : ¬ Matches v) :
    StopsWith v [] := by
  have hp : ¬ v.priRet = 0 := fun h => hm ((priRet_eq_zero v).mp h)
  constructor <;> simp [taruibWriteSignedfileIf, hs, ho, hp]

/-- What the accepting branch returns. -/
theorem taruibWriteSignedfileIf_of_matches (ho : v.fails .openSigfile = false) (hm : Matches v) :
    taruibWriteSignedfileIf v =
      if v.fails .rewindArchive then ⟨10, (writeCheckedSig v.sig sigsize v.whichsig).2, false⟩
      else ⟨if v.catalogRet ≤ 0 then 9 else (writeCheckedSig v.sig sigsize v.whichsig).1,
        (writeCheckedSig v.sig sigsize v.whichsig).2, true⟩ := by
  simp [taruibWriteSignedfileIf, hs, ho, (priRet_eq_zero v).mpr hm]

end

/-- Once everything matches, the decision is right when the package is
acceptable, or when the signature fails its checks and the catalog cannot be
emitted. -/
theorem decides_iff_of_matches {v : SignedPackage} (hc : v.Compares)
    (hs : v.beforeCompare = .ok v.child.cret.toNat) (ho : v.fails .openSigfile = false)
    (hm : Matches v) :
    Decides v ↔ Acceptable v ∨ (¬ v.SigChecked ∧ v.fails .rewindArchive = true) := by
  have hret := taruibWriteSignedfileIf_of_matches hs ho hm
  have hpos : 0 < v.child.cret.toNat := by
    rcases hc.done.size with h | h <;> rw [h] <;> decide
  cases hok : (doSigSafetyChecks v.sig v.child.cret.toNat v.whichsig).result with
  | ok u =>
      have hchecked : v.SigChecked := ⟨hc.done, hok⟩
      have hne := flatMap_writeSelectedSig_ne_nil hpos hok
      have hfile : (taruibWriteSignedfileIf v).sigfile ≠ [] := by
        rw [hret]
        split <;> simpa [writeCheckedSig, hok] using hne
      constructor
      · intro hd
        by_contra hcon
        exact hfile (hd.refuses fun ha => hcon (.inl ha)).2
      · rintro (ha | ⟨hn, -⟩)
        · exact ⟨fun _ => ha, fun _ => ha, fun hn => absurd ha hn⟩
        · exact absurd hchecked hn
  | error code =>
      have hunchecked : ¬ v.SigChecked := fun h => by rw [h.2] at hok; cases hok
      have hna : ¬ Acceptable v := fun ha => hunchecked ha.sig
      simp only [hna, hunchecked, not_false_eq_true, true_and, false_or]
      cases hr : v.fails .rewindArchive with
      | true =>
          have hstop : StopsWith v [] := by
            constructor <;> simp [hret, hr, writeCheckedSig, hok]
          simp [hstop.decides_iff]
      | false =>
          refine ⟨fun hd => absurd (hd.emits ?_) hna, fun h => by cases h⟩
          simp [hret, hr]

/-! ## When the decision is right -/

/-- The condition for a right decision.  Either the package is acceptable, or the
run stops with an error return that leaves the signature file alone and there was
nothing in it, or it stops with one that empties the file, or the comparison
already finds a difference, or the signature fails its checks and the archive
cannot be rewound to emit the catalog. -/
inductive Covered (v : SignedPackage) : Prop where
  | acceptable : Acceptable v → Covered v
  | keeping : v.StopsKeeping → v.keptSigfile = [] → Covered v
  | emptying : v.StopsEmptying → Covered v
  | openSigfile : v.Compares → v.fails .openSigfile = true → v.leftByChild = [] → Covered v
  | mismatch : v.Compares → v.fails .openSigfile = false → ¬ Matches v → Covered v
  | unchecked : v.Compares → v.fails .openSigfile = false → ¬ v.SigChecked →
      v.fails .rewindArchive = true → Covered v

theorem SignedPackage.StopsKeeping.not_emptying {v : SignedPackage} (h : v.StopsKeeping) :
    ¬ v.StopsEmptying := by
  rintro ⟨he, hd, hr⟩
  rcases h with h | h | ⟨hn, h⟩
  · exact he h
  · simp [hd] at h
  · rcases hr with hr | ⟨hg, hw⟩
    · exact hn hr
    · rcases h with h | ⟨h, -⟩
      · simp [hg] at h
      · simp [hw] at h

theorem SignedPackage.Compares.not_keeping {v : SignedPackage} (h : v.Compares) :
    ¬ v.StopsKeeping := by
  rintro (he | hd | ⟨-, hg | ⟨-, hc⟩⟩)
  · exact h.early he
  · simp [h.digests] at hd
  · simp [h.readSig] at hg
  · exact hc h.done

theorem SignedPackage.Compares.not_emptying {v : SignedPackage} (h : v.Compares) :
    ¬ v.StopsEmptying := by
  rintro ⟨-, -, hr | ⟨-, hw⟩⟩
  · exact h.recorded hr
  · simp [h.rewindSig] at hw

/-- A digest of zeros. -/
def zeroDigest (n : Nat) : HexDigest n where
  bytes := List.replicate n 48
  len := List.length_replicate
  hex := by
    intro b hb
    rw [List.eq_of_mem_replicate hb]
    decide

/-- A signature file of one character. -/
def oneCharSig : Bytes := 65 :: List.replicate 511 0

/-- An md5 that is right, no other digest, and five bytes of data whose size is
recorded as `5x`. -/
def misSized : SignedPackage where
  fails := fun _ => false
  md5 := some (List.replicate 32 48 ++ 10 :: List.replicate 479 0)
  sha1 := none
  sha512 := none
  size := some (53 :: 120 :: List.replicate 510 0)
  calcMd5 := zeroDigest 32
  calcSha1 := zeroDigest 40
  calcSha512 := zeroDigest 128
  calcSize := 5
  calcSizeLt := by decide
  child := ⟨512, false, false, none⟩
  sig := oneCharSig
  whichsig := 0
  sigfile := []
  catalogRet := 1

theorem misSized_sigChecked : (doSigSafetyChecks oneCharSig 512 0).result = .ok () := by
  have hlen : oneCharSig.length = 1 * 512 :=
    List.length_cons.trans (congrArg (· + 1) List.length_replicate)
  refine (doSigSafetyChecks_ok_iff (by decide) hlen ⟨le_refl 1, by decide⟩).mpr
    ⟨[65], 511, ?_, List.cons_ne_nil _ _, fun c hc => List.mem_singleton.mp hc ▸ rfl⟩
  exact List.take_of_length_le hlen.le

theorem misSized_matches : Matches misSized where
  md5 := by decide +kernel
  sha1 := .inl (by decide +kernel)
  size := .inr ⟨by decide, by decide +kernel⟩
  sha512 := .inl (by decide +kernel)

theorem misSized_compares : misSized.Compares where
  early := by unfold SignedPackage.FailsEarly; decide
  digests := rfl
  recorded := by unfold SignedPackage.RefusesRecorded; decide +kernel
  readSig := rfl
  rewindSig := rfl
  done := ⟨rfl, rfl, rfl, .inl rfl⟩

theorem misSized_ret : (taruibWriteSignedfileIf misSized).ret = 0 := by
  have hs : misSized.beforeCompare = .ok 512 := by
    rcases misSized.beforeCompare_cases with ⟨hk, -⟩ | ⟨he, -⟩ | ⟨-, hs⟩
    · exact absurd hk misSized_compares.not_keeping
    · exact absurd he misSized_compares.not_emptying
    · exact hs
  have hret := taruibWriteSignedfileIf_of_matches hs rfl misSized_matches
  rw [if_neg (show ¬ misSized.fails .rewindArchive = true from Bool.false_ne_true)] at hret
  have hok : (doSigSafetyChecks misSized.sig 512 misSized.whichsig).result = .ok () :=
    misSized_sigChecked
  have hpri : (writeCheckedSig misSized.sig 512 misSized.whichsig).1 = 0 := by
    rw [writeCheckedSig, hok]
  rw [hret, if_neg (show ¬ misSized.catalogRet ≤ 0 by decide), hpri]

end Swbis.Taru
