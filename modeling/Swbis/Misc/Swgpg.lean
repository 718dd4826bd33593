import Swbis.Lib.Search
import Swbis.Lib.Strtok

/-!
# The verdict on a gpg signature

gpg writes status lines, `[GNUPG:] KEYWORD text`, mixed with other output.  The
program reads all lines and decides from how many report a good signature, a bad
one, no data and no key.

The text behind the keyword holds the user id, which is chosen by whoever made
the key.  The code looks for the keywords anywhere in a line, so a line can be
*misread*: read as a kind that its keyword does not say.
-/

namespace Swbis.Misc

open CLib

/-! ## The code -/

/-- `GPG_STATUS_PREFIX` -/
def gpgStatusPrefix : Bytes := chars ['[', 'G', 'N', 'U', 'P', 'G', ':', ']', ' ']

/-- `GPG_STATUS_GOODSIG` -/
def gpgStatusGoodsig : Bytes := chars ['G', 'O', 'O', 'D', 'S', 'I', 'G']

/-- `GPG_STATUS_BADSIG` -/
def gpgStatusBadsig : Bytes := chars ['B', 'A', 'D', 'S', 'I', 'G']

/-- `GPG_STATUS_NO_PUBKEY` -/
def gpgStatusNoPubkey : Bytes := chars ['N', 'O', '_', 'P', 'U', 'B', 'K', 'E', 'Y']

/-- `GPG_STATUS_EXPSIG` -/
def gpgStatusExpsig : Bytes := chars ['E', 'X', 'P', 'S', 'I', 'G']

/-- `GPG_STATUS_NODATA` -/
def gpgStatusNodata : Bytes := chars ['N', 'O', 'D', 'A', 'T', 'A']

/-- `SWGPG_SIG_VALID`, `SWGPG_SIG_NOT_VALID`, `SWGPG_SIG_NO_PUBKEY` and `SWGPG_SIG_NODATA`. -/
inductive SigStatus where
  | valid
  | notValid
  | noPubkey
  | nodata
deriving DecidableEq

/-- The delimiters `"\n\r"`. -/
def isLineEnd (c : UInt8) : Bool := c == 10 || c == 13

/-- The lines that `strob_strtok` returns. -/
def gpgLines (out : Bytes) : List Bytes := tokens isLineEnd out

/-- `strstr (line, GPG_STATUS_PREFIX) == line`. -/
def isStatusLine (line : Bytes) : Bool := findSub gpgStatusPrefix line == some 0

/-- `strstr (line, word)` is not null. -/
def hasWord (word line : Bytes) : Bool := (findSub word line).isSome

/-- The counters of `swgpg_determine_signature_status`. -/
structure SigCounts where
  goodCount : Nat := 0
  badCount : Nat := 0
  nodata : Nat := 0
  nokey : Nat := 0
deriving DecidableEq

/-- The body of the loop over the lines. -/
def countLine (c : SigCounts) (line : Bytes) : SigCounts :=
  if isStatusLine line then
    if hasWord (gpgStatusPrefix ++ gpgStatusGoodsig) line then
      { c with goodCount := c.goodCount + 1 }
    else if hasWord gpgStatusBadsig line then { c with badCount := c.badCount + 1 }
    else if hasWord gpgStatusNoPubkey line then { c with nokey := c.nokey + 1 }
    else if hasWord gpgStatusExpsig line then { c with badCount := c.badCount + 1 }
    else if hasWord gpgStatusNodata line then { c with nodata := c.nodata + 1 }
    else c
  else c

/-- The counters behind the loop. -/
def countLines (lines : List Bytes) : SigCounts := lines.foldl countLine {}

/-- `swgpg_determine_signature_status`. -/
def swgpgDetermineSignatureStatus (gpgStatusLines : CString) (whichSig : Int) : SigStatus :=
  let c := countLines (gpgLines gpgStatusLines.bytes)
  if (whichSig < 0 ∧ c.goodCount ≥ 1 ∧ c.badCount = 0 ∧ c.nokey = 0 ∧ c.nodata = 0) ∨
      (whichSig ≥ 0 ∧ c.goodCount = 1 ∧ c.badCount = 0 ∧ c.nokey = 0 ∧ c.nodata = 0) then .valid
  else if c.goodCount = 0 ∧ c.badCount = 0 ∧ c.nokey > 0 then .noPubkey
  else if c.goodCount = 0 ∧ c.badCount = 0 ∧ c.nodata > 0 then .nodata
  else .notValid

/-- `swgpg_disentangle_status_lines`: the status lines, and all others. -/
def swgpgDisentangleStatusLines (gpgOutputLines : CString) : Bytes × Bytes :=
  let lines := gpgLines gpgOutputLines.bytes
  ((lines.filter isStatusLine).flatMap (· ++ [10]),
    (lines.filter fun line => !isStatusLine line).flatMap (· ++ [10]))

/-! ## What the lines say -/

/-- What a line says about a signature. -/
inductive LineKind where
  /-- A good signature. -/
  | good
  /-- A bad or expired signature, no public key or no data. -/
  | bad
  /-- Nothing. -/
  | other
deriving DecidableEq

/-- The word behind the prefix. -/
def statusKeyword (line : Bytes) : Bytes :=
  (line.drop gpgStatusPrefix.length).takeWhile (· != 32)

/-- The keywords of a signature that is not good. -/
def badKeywords : List Bytes :=
  [gpgStatusBadsig, gpgStatusExpsig, gpgStatusNoPubkey, gpgStatusNodata]

/-- What the keyword of a line says. -/
def said (line : Bytes) : LineKind :=
  if gpgStatusPrefix <+: line then
    if statusKeyword line = gpgStatusGoodsig then .good
    else if statusKeyword line ∈ badKeywords then .bad
    else .other
  else .other

/-- What the code reads in a line. -/
def readAs (line : Bytes) : LineKind :=
  if isStatusLine line then
    if hasWord (gpgStatusPrefix ++ gpgStatusGoodsig) line then .good
    else if badKeywords.any fun word => hasWord word line then .bad
    else .other
  else .other

/-- The number of good signatures is right. -/
def Enough (whichSig : Int) (goodCount : Nat) : Prop :=
  if whichSig < 0 then 1 ≤ goodCount else goodCount = 1

/-- The verdict from the keywords. -/
def SignatureValid (lines : List Bytes) (whichSig : Int) : Prop :=
  Enough whichSig (lines.countP fun line => said line = .good) ∧
    ∀ line ∈ lines, said line ≠ .bad

/-- How many lines are read as one kind and say another. -/
def misread (lines : List Bytes) (read kind : LineKind) : Nat :=
  lines.countP fun line => decide (readAs line = read ∧ said line = kind)

/-- The verdict does not depend on lines that are misread.  Either a line that
says bad is read so; or a line is misread as bad and the verdict from the
keywords is not good either; or no line is read as bad, and the lines misread as
good do not change whether the number of good signatures is right. -/
def VerdictUnaffected (lines : List Bytes) (whichSig : Int) : Prop :=
  0 < misread lines .bad .bad ∨
  (0 < misread lines .bad .other ∧
    (0 < misread lines .good .bad ∨ ¬Enough whichSig (lines.countP fun line => said line = .good))) ∨
  (misread lines .bad .other = 0 ∧
    if 0 < misread lines .good .bad then
      ¬Enough whichSig ((lines.countP fun line => said line = .good) +
        misread lines .good .bad + misread lines .good .other)
    else
      (Enough whichSig ((lines.countP fun line => said line = .good) + misread lines .good .other) ↔
        Enough whichSig (lines.countP fun line => said line = .good)))

/-! ## Reading a line -/

theorem isStatusLine_iff {line : Bytes} : isStatusLine line = true ↔ gpgStatusPrefix <+: line := by
  rw [isStatusLine, beq_iff_eq, findSub_eq_zero]

theorem hasWord_iff {word line : Bytes} : hasWord word line = true ↔ word <:+: line := findSub_isSome

/-- A line with the prefix and the keyword. -/
theorem eq_of_statusKeyword {line word : Bytes} (hpre : gpgStatusPrefix <+: line)
    (h : statusKeyword line = word) : gpgStatusPrefix ++ word <+: line := by
  obtain ⟨rest, rfl⟩ := hpre
  rw [statusKeyword, List.drop_left] at h
  rw [← h, List.prefix_append_right_inj]
  exact List.takeWhile_prefix _

/-- A line that says good is read so. -/
theorem readAs_of_said_good {line : Bytes} (h : said line = .good) : readAs line = .good := by
  rw [said] at h
  split at h
  next hpre =>
    split at h
    next hkey =>
      have hword := (eq_of_statusKeyword hpre hkey).isInfix
      rw [readAs, if_pos (isStatusLine_iff.mpr hpre), if_pos (hasWord_iff.mpr hword)]
    next =>
      split at h <;> cases h
  next => cases h

/-- A line that says bad is read so, or misread as good. -/
theorem readAs_of_said_bad {line : Bytes} (h : said line = .bad) : readAs line ≠ .other := by
  rw [said] at h
  split at h
  next hpre =>
    split at h
    next => cases h
    next =>
      split at h
      next hkey =>
        have hword := (List.suffix_append gpgStatusPrefix _).isInfix.trans
          (eq_of_statusKeyword hpre rfl).isInfix
        rw [readAs, if_pos (isStatusLine_iff.mpr hpre)]
        split
        next => exact nofun
        next =>
          have hany : (badKeywords.any fun word => hasWord word line) = true :=
            List.any_eq_true.mpr ⟨statusKeyword line, hkey, hasWord_iff.mpr hword⟩
          rw [if_pos hany]
          exact nofun
      next => cases h
  next => cases h

/-! ## Counting -/

/-- What one line adds to the counters. -/
theorem countLine_eq (c : SigCounts) (line : Bytes) :
    (countLine c line).goodCount = c.goodCount + (if readAs line = .good then 1 else 0) ∧
    (countLine c line).badCount + (countLine c line).nokey + (countLine c line).nodata =
      c.badCount + c.nokey + c.nodata + (if readAs line = .bad then 1 else 0) := by
  rw [countLine, readAs]
  by_cases hs : isStatusLine line = true
  · rw [if_pos hs, if_pos hs]
    by_cases hg : hasWord (gpgStatusPrefix ++ gpgStatusGoodsig) line = true
    · rw [if_pos hg, if_pos hg]
      exact ⟨rfl, rfl⟩
    · rw [if_neg hg, if_neg hg]
      simp only [badKeywords, List.any_cons, List.any_nil, Bool.or_false]
      cases hasWord gpgStatusBadsig line <;> cases hasWord gpgStatusNoPubkey line <;>
        cases hasWord gpgStatusExpsig line <;> cases hasWord gpgStatusNodata line <;>
        simp <;> omega
  · rw [if_neg hs, if_neg hs]
    exact ⟨rfl, rfl⟩

theorem foldl_countLine (lines : List Bytes) (c : SigCounts) :
    (lines.foldl countLine c).goodCount =
      c.goodCount + lines.countP (fun line => readAs line = .good) ∧
    (lines.foldl countLine c).badCount + (lines.foldl countLine c).nokey +
        (lines.foldl countLine c).nodata =
      c.badCount + c.nokey + c.nodata + lines.countP (fun line => readAs line = .bad) := by
  induction lines generalizing c with
  | nil => exact ⟨rfl, rfl⟩
  | cons line lines ih =>
      have hline := countLine_eq c line
      have hrest := ih (countLine c line)
      rw [List.foldl_cons, List.countP_cons, List.countP_cons]
      simp only [decide_eq_true_iff]
      omega

/-- The verdict of the code from what it reads. -/
theorem swgpgDetermineSignatureStatus_valid {out : CString} {whichSig : Int} :
    swgpgDetermineSignatureStatus out whichSig = .valid ↔
      Enough whichSig ((gpgLines out.bytes).countP fun line => readAs line = .good) ∧
        (gpgLines out.bytes).countP (fun line => readAs line = .bad) = 0 := by
  have hcount := foldl_countLine (gpgLines out.bytes) {}
  rw [swgpgDetermineSignatureStatus, countLines, Enough]
  generalize (gpgLines out.bytes).foldl countLine {} = c at hcount
  dsimp only at hcount ⊢
  split
  next h =>
    refine iff_of_true rfl ?_
    split <;> omega
  next h =>
    constructor
    · intro h'
      split at h'
      next => cases h'
      next =>
        split at h' <;> cases h'
    · rintro ⟨hgood, hbad⟩
      refine absurd ?_ h
      split at hgood <;> omega

/-- The lines by what they are read as and what they say. -/
theorem count_eq (lines : List Bytes) :
    lines.countP (fun line => readAs line = .good) =
      lines.countP (fun line => said line = .good) + misread lines .good .bad +
        misread lines .good .other ∧
    lines.countP (fun line => readAs line = .bad) =
      misread lines .bad .bad + misread lines .bad .other ∧
    lines.countP (fun line => said line = .bad) =
      misread lines .bad .bad + misread lines .good .bad := by
  simp only [misread]
  induction lines with
  | nil => exact ⟨rfl, rfl, rfl⟩
  | cons line lines ih =>
      have hgood := @readAs_of_said_good line
      have hbad := @readAs_of_said_bad line
      simp only [List.countP_cons, decide_eq_true_iff]
      cases hr : readAs line <;> cases hk : said line <;>
        simp only [hr, hk, reduceCtorEq, ne_eq, not_true, and_true, and_false, and_self,
          if_true, if_false, imp_false] at hgood hbad ⊢ <;> omega

/-- The code decides by the keywords exactly when the verdict does not depend on
lines that are misread. -/
theorem swgpgDetermineSignatureStatus_agrees_iff (out : CString) (whichSig : Int) :
    (swgpgDetermineSignatureStatus out whichSig = .valid ↔
        SignatureValid (gpgLines out.bytes) whichSig) ↔
      VerdictUnaffected (gpgLines out.bytes) whichSig := by
  obtain ⟨hgood, hbad, hsaid⟩ := count_eq (gpgLines out.bytes)
  have hnone : (∀ line ∈ gpgLines out.bytes, said line ≠ .bad) ↔
      (gpgLines out.bytes).countP (fun line => said line = .bad) = 0 := by
    simp [List.countP_eq_zero]
  rw [swgpgDetermineSignatureStatus_valid, SignatureValid, hnone, hgood, hbad, hsaid,
    VerdictUnaffected]
  generalize misread (gpgLines out.bytes) .bad .bad = b
  generalize misread (gpgLines out.bytes) .bad .other = k
  generalize misread (gpgLines out.bytes) .good .bad = m
  generalize misread (gpgLines out.bytes) .good .other = f
  generalize (gpgLines out.bytes).countP (fun line => said line = .good) = a
  simp only [Enough]
  by_cases hw : whichSig < 0 <;> simp only [hw, if_true, if_false] <;> split <;> omega

/-- One line for an expired key whose user id is `[GNUPG:] GOODSIG`. -/
def expiredKeyOutput : CString where
  bytes := gpgStatusPrefix ++ chars ['E', 'X', 'P', 'K', 'E', 'Y', 'S', 'I', 'G', ' ', '0', '1', ' '] ++
    gpgStatusPrefix ++ gpgStatusGoodsig ++ [10]
  noNul := by decide

/-- The user id makes the signature valid. -/
theorem swgpgDetermineSignatureStatus_expired_key :
    ¬(swgpgDetermineSignatureStatus expiredKeyOutput (-1) = .valid ↔
      SignatureValid (gpgLines expiredKeyOutput.bytes) (-1)) := by
  have hcode : swgpgDetermineSignatureStatus expiredKeyOutput (-1) = .valid := by decide
  have hnone : (gpgLines expiredKeyOutput.bytes).countP (fun line => said line = .good) = 0 := by
    decide
  intro h
  obtain ⟨henough, _⟩ := h.mp hcode
  rw [hnone, Enough, if_pos (by decide)] at henough
  exact absurd henough (by decide)

/-! ## Sorting the lines -/

theorem countLine_of_not_status {line : Bytes} (h : isStatusLine line = false) (c : SigCounts) :
    countLine c line = c := by
  rw [countLine, if_neg (by simp [h])]

theorem foldl_countLine_filter (lines : List Bytes) (c : SigCounts) :
    (lines.filter isStatusLine).foldl countLine c = lines.foldl countLine c := by
  induction lines generalizing c with
  | nil => rfl
  | cons line lines ih =>
      by_cases hs : isStatusLine line = true
      · rw [List.filter_cons_of_pos hs, List.foldl_cons, List.foldl_cons, ih]
      · rw [List.filter_cons_of_neg hs, List.foldl_cons, ih,
          countLine_of_not_status (by simpa using hs)]

/-- The verdict on the status lines alone is the verdict on the whole output. -/
theorem swgpgDisentangleStatusLines_verdict (out : CString) (whichSig : Int)
    (status : CString) (h : status.bytes = (swgpgDisentangleStatusLines out).1) :
    swgpgDetermineSignatureStatus status whichSig = swgpgDetermineSignatureStatus out whichSig := by
  have hlines : gpgLines status.bytes = (gpgLines out.bytes).filter isStatusLine := by
    rw [h, swgpgDisentangleStatusLines, gpgLines]
    refine tokens_flatMap rfl fun t ht => ?_
    have hmem := mem_tokens (List.mem_filter.mp ht).1
    exact ⟨hmem.1, fun x hx => (hmem.2 x hx).1⟩
  rw [swgpgDetermineSignatureStatus, swgpgDetermineSignatureStatus, countLines, countLines, hlines,
    foldl_countLine_filter]

end Swbis.Misc
