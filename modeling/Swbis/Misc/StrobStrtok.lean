import Swbis.Lib.Memory
import Swbis.Lib.Strtok

/-!
# The tokens of a string object

`strob_strtok` looks for the next token of the string in the object, ends it with a NUL, and
keeps in `tok_` where the next call is to look.  It returns a pointer to the token.

The pointers `start`, `p`, `m` and `end` of the code are offsets in the block here, and NULL is
none.  An access outside the block is a fault.  How long the block is, as an `int`, does not
matter here: `strob_strcpy` makes it long enough.

`strobStrtok_runs` says what the calls return one after the other: the parts of the string that
stand between delimiters and are not empty, and NULL from then on.  `StrtokBuf.Rest` is the
invariant, that the string at `tok_` is what is left; `nextToken_null` is one call.
-/

namespace Swbis.Misc

open CLib

/-! ## The code -/

/-- `STROB`: the block `str_`, and `tok_` as an offset in it. -/
structure StrtokBuf where
  str : Bytes
  tok : Nat
deriving DecidableEq

/-- The string that a call is given. -/
inductive StrtokArg where
  | null
  /-- The string in the object itself. -/
  | own
  | other (s : CString)

/-- `if (s) { .. }`: the copy of the string, and `tok_` at its beginning. -/
def StrtokArg.begin (buf : StrtokBuf) : StrtokArg → StrtokBuf
  | .null => buf
  | .own => { buf with tok := 0 }
  | .other s => ⟨overwrite buf.str 0 (s.bytes ++ [0]), 0⟩

/-- A byte of `delim`. -/
def isDelim (delim : CString) (c : UInt8) : Bool := delim.bytes.contains c

/-- `strlen(p)` -/
def strlenAt (mem : Bytes) (p : Nat) : Outcome Nat := do
  let s ← loadString mem p
  return s.strlen

/-- `strpbrk(start, delim)` -/
def strpbrk (mem : Bytes) (start : Nat) (delim : CString) : Outcome (Option Nat) := do
  let s ← loadString mem start
  return (s.bytes.findIdx? (isDelim delim)).map (start + ·)

/-- The loop that looks for a delimiter and goes on as long as one stands at `start`, with the
last values of `p` and `start`. -/
def skipLoop (mem : Bytes) (delim : CString) :
    Nat → Option Nat → Nat → Outcome (Option Nat × Nat)
  | 0, _, _ => .outOfFuel
  | fuel + 1, p, start => do
      let start := if p = some start then start + 1 else start
      let p ← strpbrk mem start delim
      if p = some start then skipLoop mem delim fuel p start else return (p, start)

/-- `while(*m && strchr(delim, (int)*m)) m++;` -/
def skipDelims (mem : Bytes) (delim : CString) : Nat → Nat → Outcome Nat
  | 0, _ => .outOfFuel
  | fuel + 1, m => do
      let c ← loadSlot mem m
      if c ≠ 0 ∧ isDelim delim c then skipDelims mem delim fuel (m + 1) else return m

/-- The values of `p`, `end` and `retval`, and the block, once the token has been ended. -/
structure EndedToken where
  str : Bytes
  p : Nat
  stop : Nat
  retval : Option Nat

/-- `if (p) { .. } else { .. }` -/
def endToken (mem : Bytes) (start : Nat) : Option Nat → Outcome EndedToken
  | some p => do
      let mem ← storeSlot mem p 0
      let behind ← strlenAt mem (p + 1)
      let len ← strlenAt mem start
      return ⟨mem, p, p + 1 + behind, if len ≠ 0 then some start else none⟩
  | none => do
      let len ← strlenAt mem start
      return ⟨mem, start + len, start + len, some start⟩

namespace StrtokBuf

/-- The end of `strob_strtok`: `tok_` behind the delimiters that follow, and the token unless it
is empty. -/
def leaveToken (delim : CString) (t : EndedToken) : Outcome (Option Nat × StrtokBuf) := do
  let tok ← if t.p < t.stop then skipDelims t.str delim (t.str.length + 1) (t.p + 1)
    else pure t.stop
  match t.retval with
  | none => .fault
  | some r => do
      let len ← strlenAt t.str r
      return (if len = 0 then none else some r, ⟨t.str, tok⟩)

/-- `strob_strtok` -/
def strobStrtok (buf : StrtokBuf) (s : StrtokArg) (delim : CString) :
    Outcome (Option Nat × StrtokBuf) := do
  let buf := s.begin buf
  let len ← strlenAt buf.str buf.tok
  if len = 0 then return (none, buf)
  else do
    let (p, start) ← skipLoop buf.str delim (buf.str.length + 1) none buf.tok
    let t ← endToken buf.str start p
    leaveToken delim t

/-- A call, and a look at the token. -/
def nextToken (buf : StrtokBuf) (s : StrtokArg) (delim : CString) :
    Outcome (Option Bytes × StrtokBuf) := do
  let (r, buf) ← buf.strobStrtok s delim
  match r with
  | none => return (none, buf)
  | some r => do
      let t ← loadString buf.str r
      return (some t.bytes, buf)

end StrtokBuf

/-- One call with the string, and the others with NULL. -/
def strtokCalls (delim : CString) :
    Nat → StrtokArg → StrtokBuf → Outcome (List (Option Bytes) × StrtokBuf)
  | 0, _, buf => .returned ([], buf)
  | n + 1, s, buf => do
      let (t, buf) ← buf.nextToken s delim
      let (ts, buf) ← strtokCalls delim n .null buf
      return (t :: ts, buf)

/-! ## The loops -/

section

variable {delim : CString}

theorem strlenAt_append (front : Bytes) (s : CString) (spare : Bytes) :
    strlenAt (front ++ (s.bytes ++ 0 :: spare)) front.length = .returned s.strlen := by
  rw [strlenAt, loadString_append]
  rfl

variable (delim) in
theorem strpbrk_append (front : Bytes) (s : CString) (spare : Bytes) :
    strpbrk (front ++ (s.bytes ++ 0 :: spare)) front.length delim =
      .returned ((s.bytes.findIdx? (isDelim delim)).map (front.length + ·)) := by
  rw [strpbrk, loadString_append]
  rfl

/-- The NUL is no delimiter. -/
theorem isDelim_nul (delim : CString) : isDelim delim 0 = false := by
  rw [isDelim, Bool.eq_false_iff]
  exact fun h => delim.noNul (List.contains_iff_mem.mp h)

/-- The NUL behind a string ends the delimiters. -/
theorem takeWhile_append_nul (s spare : Bytes) :
    (s ++ 0 :: spare).takeWhile (isDelim delim) = s.takeWhile (isDelim delim) := by
  induction s with
  | nil => exact List.takeWhile_cons_of_neg (by simp [isDelim_nul])
  | cons c s ih => rw [List.cons_append, List.takeWhile_cons, List.takeWhile_cons, ih]

variable (delim) in
/-- The loop stops behind the delimiters in front, and has looked for the next one. -/
theorem skipLoop_eq {s : Bytes} (hs : 0 ∉ s) (front spare : Bytes) {fuel : Nat}
    (hfuel : s.length < fuel) {p : Option Nat} {start : Nat}
    (hstart : (if p = some start then start + 1 else start) = front.length) :
    skipLoop (front ++ (s ++ 0 :: spare)) delim fuel p start =
      .returned (((s.dropWhile (isDelim delim)).findIdx? (isDelim delim)).map
        (front.length + (s.takeWhile (isDelim delim)).length + ·),
        front.length + (s.takeWhile (isDelim delim)).length) := by
  obtain ⟨fuel, rfl⟩ := Nat.exists_eq_add_of_lt hfuel
  clear hfuel
  induction s generalizing front p start with
  | nil =>
      have hfind := strpbrk_append delim front .empty spare
      simp only [CString.bytes_empty, List.findIdx?_nil, Option.map_none] at hfind
      simp only [skipLoop, hstart, hfind, Outcome.returned_bind]
      rfl
  | cons c s ih =>
      have hfind := strpbrk_append delim front ⟨c :: s, hs⟩ spare
      rw [List.findIdx?_cons] at hfind
      rw [show (c :: s).length + fuel + 1 = s.length + fuel + 1 + 1 from by
        rw [List.length_cons]; omega, skipLoop]
      simp only [hstart, hfind, Outcome.returned_bind]
      by_cases hc : isDelim delim c = true
      · have hnext : front ++ (c :: s ++ 0 :: spare) = (front ++ [c]) ++ (s ++ 0 :: spare) := by
          simp
        have hbehind : (if some front.length = some front.length then front.length + 1
            else front.length) = (front ++ [c]).length := by
          rw [if_pos rfl, List.length_append, List.length_singleton]
        rw [if_pos hc, Option.map_some, Nat.add_zero, if_pos rfl, hnext,
          ih (List.not_mem_of_not_mem_cons hs) (front ++ [c]) hbehind,
          List.takeWhile_cons_of_pos hc, List.dropWhile_cons_of_pos hc]
        simp only [List.length_append, List.length_cons, List.length_nil, Nat.zero_add,
          Nat.add_assoc, Nat.add_comm 1]
      · have hfar : ((s.findIdx? (isDelim delim)).map (· + 1)).map (front.length + ·) ≠
            some front.length := by
          cases s.findIdx? (isDelim delim) with
          | none => exact nofun
          | some k =>
              intro h
              have hk : front.length + (k + 1) = front.length := Option.some.inj h
              omega
        rw [if_neg hc, if_neg hfar, List.takeWhile_cons_of_neg hc, List.dropWhile_cons_of_neg hc,
          List.findIdx?_cons, if_neg hc]
        rfl

variable (delim) in
/-- The loop stops behind the delimiters in front. -/
theorem skipDelims_eq {s : Bytes} (hs : 0 ∉ s) (front spare : Bytes) {fuel : Nat}
    (hfuel : s.length < fuel) :
    skipDelims (front ++ (s ++ 0 :: spare)) delim fuel front.length =
      .returned (front.length + (s.takeWhile (isDelim delim)).length) := by
  obtain ⟨fuel, rfl⟩ := Nat.exists_eq_add_of_lt hfuel
  clear hfuel
  induction s generalizing front with
  | nil =>
      rw [skipDelims, List.nil_append, loadSlot_append rfl]
      rfl
  | cons c s ih =>
      have hnext : front ++ (c :: s ++ 0 :: spare) = (front ++ [c]) ++ (s ++ 0 :: spare) := by
        simp
      have hc0 : c ≠ 0 := fun h => hs (h ▸ List.mem_cons_self)
      rw [show (c :: s).length + fuel + 1 = s.length + fuel + 1 + 1 from by
        rw [List.length_cons]; omega, skipDelims, List.cons_append, loadSlot_append rfl,
        Outcome.returned_bind]
      by_cases hc : isDelim delim c = true
      · have hrest := ih (List.not_mem_of_not_mem_cons hs) (front ++ [c])
        rw [List.length_append, List.length_singleton] at hrest
        rw [if_pos ⟨hc0, hc⟩, ← List.cons_append, hnext, hrest, List.takeWhile_cons_of_pos hc,
          List.length_cons, Nat.add_assoc, Nat.add_comm 1]
      · rw [if_neg fun h => hc h.2, List.takeWhile_cons_of_neg hc]
        rfl

/-- Without a delimiter the token goes up to the end of the string. -/
theorem endToken_none (front : Bytes) (s : CString) (spare : Bytes) :
    endToken (front ++ (s.bytes ++ 0 :: spare)) front.length none =
      .returned ⟨front ++ (s.bytes ++ 0 :: spare), front.length + s.strlen,
        front.length + s.strlen, some front.length⟩ := by
  rw [endToken, strlenAt_append]
  rfl

/-- A delimiter is overwritten. -/
theorem endToken_some (front : Bytes) {t : CString} (ht : t.bytes ≠ []) (d : UInt8) (s : CString)
    (spare : Bytes) :
    endToken (front ++ (t.bytes ++ d :: (s.bytes ++ 0 :: spare))) front.length
        (some (front.length + t.strlen)) =
      .returned ⟨front ++ (t.bytes ++ 0 :: (s.bytes ++ 0 :: spare)), front.length + t.strlen,
        front.length + t.strlen + 1 + s.strlen, some front.length⟩ := by
  have hlen : (front ++ t.bytes).length = front.length + t.strlen := List.length_append
  have hset := storeSlot_append hlen d 0 (s.bytes ++ 0 :: spare)
  have hbehind := strlenAt_append (front ++ t.bytes ++ [0]) s spare
  rw [List.length_append, hlen, List.length_singleton, ← List.append_cons, List.append_assoc] at hbehind
  rw [List.append_assoc, List.append_assoc] at hset
  have hpos : t.strlen ≠ 0 := fun h => ht (List.length_eq_zero_iff.mp h)
  rw [endToken, hset]
  simp only [Outcome.returned_bind, hbehind, strlenAt_append, if_pos hpos]
  rfl

end

/-! ## One call -/

namespace StrtokBuf

variable {buf : StrtokBuf} {delim : CString} {s : Bytes}

/-- The string at `tok_`, where the next call looks. -/
structure Rest (buf : StrtokBuf) (s : Bytes) : Prop where
  noNul : 0 ∉ s
  lies : ∃ front spare, buf.str = front ++ (s ++ 0 :: spare) ∧ buf.tok = front.length

/-- The object begins with its string. -/
theorem rest_zero (s : CString) (spare : Bytes) : (⟨s.bytes ++ 0 :: spare, 0⟩ : StrtokBuf).Rest s.bytes :=
  ⟨s.noNul, [], spare, rfl, rfl⟩

/-- The beginning of a string that passes a test counts as what stands before it. -/
theorem block_split (test : UInt8 → Bool) (front s spare : Bytes) :
    front ++ (s ++ 0 :: spare) = (front ++ s.takeWhile test) ++ (s.dropWhile test ++ 0 :: spare) := by
  rw [List.append_assoc, ← List.append_assoc (s.takeWhile test), List.takeWhile_append_dropWhile]

/-- Once `tok_` is at the end, the string there is empty. -/
theorem rest_end (front spare : Bytes) :
    (⟨front ++ 0 :: spare, front.length⟩ : StrtokBuf).Rest [] :=
  ⟨List.not_mem_nil, front, spare, rfl, rfl⟩

/-- Without a token behind the delimiters the call returns NULL. -/
theorem leaveToken_nil (front spare : Bytes) :
    leaveToken delim ⟨front ++ 0 :: spare, front.length, front.length, some front.length⟩ =
      .returned (none, ⟨front ++ 0 :: spare, front.length⟩) := by
  have hlen := strlenAt_append front .empty spare
  rw [CString.bytes_empty, List.nil_append] at hlen
  simp only [leaveToken, if_neg (Nat.lt_irrefl _), Outcome.pure_eq, Outcome.returned_bind, hlen]
  rfl

/-- A token at the end of the string. -/
theorem leaveToken_last (front : Bytes) {t : CString} (ht : t.bytes ≠ []) (spare : Bytes) :
    leaveToken delim ⟨front ++ (t.bytes ++ 0 :: spare), front.length + t.strlen,
        front.length + t.strlen, some front.length⟩ =
      .returned (some front.length, ⟨front ++ (t.bytes ++ 0 :: spare), front.length + t.strlen⟩) := by
  have hpos : t.strlen ≠ 0 := fun h => ht (List.length_eq_zero_iff.mp h)
  simp only [leaveToken, if_neg (Nat.lt_irrefl _), Outcome.pure_eq, Outcome.returned_bind,
    strlenAt_append, if_neg hpos]

/-- What stands up to the NUL of a token. -/
theorem length_ended (front : Bytes) (t : CString) :
    (front ++ t.bytes ++ [0]).length = front.length + t.strlen + 1 := by
  rw [List.length_append, List.length_append, List.length_singleton, CString.strlen]

theorem ended_append (front : Bytes) (t : CString) (rest : Bytes) :
    (front ++ t.bytes ++ [0]) ++ rest = front ++ (t.bytes ++ 0 :: rest) := by
  rw [List.append_assoc, List.append_assoc, List.singleton_append]

variable (delim) in
/-- A token that has been ended with a NUL, and the string `s` behind it. -/
theorem leaveToken_ended (front : Bytes) {t : CString} (ht : t.bytes ≠ []) (s : CString)
    (spare : Bytes) :
    leaveToken delim ⟨front ++ (t.bytes ++ 0 :: (s.bytes ++ 0 :: spare)),
        front.length + t.strlen, front.length + t.strlen + 1 + s.strlen, some front.length⟩ =
      .returned (some front.length, ⟨front ++ (t.bytes ++ 0 :: (s.bytes ++ 0 :: spare)),
        front.length + t.strlen + 1 + (s.bytes.takeWhile (isDelim delim)).length⟩) := by
  have hpos : t.strlen ≠ 0 := fun h => ht (List.length_eq_zero_iff.mp h)
  have hlt : front.length + t.strlen < front.length + t.strlen + 1 + s.strlen := by omega
  have hfuel : s.bytes.length <
      (front ++ (t.bytes ++ 0 :: (s.bytes ++ 0 :: spare))).length + 1 := by
    simp only [List.length_append, List.length_cons]
    omega
  have hskip := skipDelims_eq delim s.noNul (front ++ t.bytes ++ [0]) spare hfuel
  rw [ended_append, length_ended] at hskip
  simp only [leaveToken, if_pos hlt, hskip, Outcome.returned_bind, strlenAt_append, if_neg hpos]
  rfl

/-- The delimiters behind a token are no part of what is left. -/
theorem rest_ended (front : Bytes) (t s : CString) (spare : Bytes) :
    (⟨front ++ (t.bytes ++ 0 :: (s.bytes ++ 0 :: spare)), front.length + t.strlen + 1 +
      (s.bytes.takeWhile (isDelim delim)).length⟩ : StrtokBuf).Rest
      (s.bytes.dropWhile (isDelim delim)) := by
  refine ⟨fun h => s.noNul (List.dropWhile_suffix _ |>.subset h),
    (front ++ t.bytes ++ [0]) ++ s.bytes.takeWhile (isDelim delim), spare, ?_, ?_⟩
  · rw [← block_split, ended_append]
  · rw [List.length_append, length_ended]

/-- A string whose first byte is no delimiter is a token, up to the next one. -/
theorem endToken_leaveToken (front : Bytes) (hs : 0 ∉ s) (hne : s.takeWhile (!isDelim delim ·) ≠ [])
    (spare : Bytes) :
    ∃ buf' t, endToken (front ++ (s ++ 0 :: spare)) front.length
        ((s.findIdx? (isDelim delim)).map (front.length + ·)) >>= leaveToken delim =
        .returned (some front.length, buf') ∧
      loadString buf'.str front.length = .returned t ∧
      t.bytes = s.takeWhile (!isDelim delim ·) ∧
      buf'.Rest ((s.dropWhile (!isDelim delim ·)).dropWhile (isDelim delim)) := by
  have hsplit : s.takeWhile (!isDelim delim ·) ++ s.dropWhile (!isDelim delim ·) = s :=
    List.takeWhile_append_dropWhile
  have hplain : ∀ c ∈ s.takeWhile (!isDelim delim ·), isDelim delim c = false :=
    fun c hc => by simpa using List.mem_takeWhile_imp hc
  obtain ⟨t, ht⟩ : ∃ t : CString, t.bytes = s.takeWhile (!isDelim delim ·) :=
    ⟨⟨_, fun h => hs (List.takeWhile_prefix _ |>.subset h)⟩, rfl⟩
  rw [← ht] at hne hsplit hplain ⊢
  have hnone : t.bytes.findIdx? (isDelim delim) = none := List.findIdx?_eq_none_iff.mpr hplain
  cases hrest : s.dropWhile (!isDelim delim ·) with
  | nil =>
      rw [hrest, List.append_nil] at hsplit
      rw [← hsplit, hnone, Option.map_none, endToken_none, Outcome.returned_bind]
      have hend := rest_end (front ++ t.bytes) spare
      rw [List.append_assoc, List.length_append] at hend
      exact ⟨_, t, leaveToken_last front hne spare, loadString_append front t spare, rfl, hend⟩
  | cons d w =>
      have hd : isDelim delim d = true := by
        have hhead := List.head?_dropWhile_not (!isDelim delim ·) s
        rw [hrest] at hhead
        simpa using hhead
      have hw : 0 ∉ w := fun h =>
        hs (List.dropWhile_suffix _ |>.subset (hrest ▸ List.mem_cons_of_mem d h))
      rw [hrest] at hsplit
      have hfind : s.findIdx? (isDelim delim) = some t.strlen := by
        rw [← hsplit, List.findIdx?_append, hnone, List.findIdx?_cons, if_pos hd]
        simp [CString.strlen]
      have hblock : front ++ (s ++ 0 :: spare) = front ++ (t.bytes ++ d :: (w ++ 0 :: spare)) := by
        rw [← hsplit, List.append_assoc, List.cons_append]
      rw [hfind, Option.map_some, hblock, endToken_some front hne d ⟨w, hw⟩ spare,
        Outcome.returned_bind, List.dropWhile_cons_of_pos hd]
      exact ⟨_, t, leaveToken_ended delim front hne ⟨w, hw⟩ spare, loadString_append front t _, rfl,
        rest_ended front t ⟨w, hw⟩ spare⟩

/-- At the end of the string a call finds nothing. -/
theorem strobStrtok_end (front spare : Bytes) :
    (⟨front ++ 0 :: spare, front.length⟩ : StrtokBuf).strobStrtok .null delim =
      .returned (none, ⟨front ++ 0 :: spare, front.length⟩) := by
  have hlen := strlenAt_append front .empty spare
  rw [CString.bytes_empty, List.nil_append] at hlen
  simp only [strobStrtok, StrtokArg.begin, hlen, Outcome.returned_bind]
  rfl

/-- Before the end it skips the delimiters, and ends the token behind them. -/
theorem strobStrtok_skip (front : Bytes) (hs : 0 ∉ s) (hne : s ≠ []) (spare : Bytes) :
    (⟨front ++ (s ++ 0 :: spare), front.length⟩ : StrtokBuf).strobStrtok .null delim =
      endToken ((front ++ s.takeWhile (isDelim delim)) ++ (s.dropWhile (isDelim delim) ++ 0 :: spare))
        (front ++ s.takeWhile (isDelim delim)).length
        (((s.dropWhile (isDelim delim)).findIdx? (isDelim delim)).map
          ((front ++ s.takeWhile (isDelim delim)).length + ·)) >>= leaveToken delim := by
  have hlen := strlenAt_append front ⟨s, hs⟩ spare
  have hpos : (⟨s, hs⟩ : CString).strlen ≠ 0 := fun h => hne (List.length_eq_zero_iff.mp h)
  have hfuel : s.length < (front ++ (s ++ 0 :: spare)).length + 1 := by
    rw [List.length_append, List.length_append]
    omega
  have hskip := skipLoop_eq delim hs front spare hfuel (p := none) (if_neg nofun)
  simp only [strobStrtok, StrtokArg.begin, hlen, Outcome.returned_bind, if_neg hpos, hskip]
  rw [← block_split, List.length_append]

variable (buf delim) in
/-- A call goes on with the string at `tok_`. -/
theorem nextToken_null (h : buf.Rest s) :
    ∃ buf', buf.nextToken .null delim =
        .returned ((strtok (isDelim delim) s).map Prod.fst, buf') ∧
      buf'.Rest (((strtok (isDelim delim) s).map Prod.snd).getD []) := by
  obtain ⟨str, tok⟩ := buf
  obtain ⟨hs, front, spare, hstr, htok⟩ := h
  dsimp only at hstr htok
  subst hstr htok
  by_cases hne : s = []
  · subst hne
    rw [List.nil_append, nextToken, strobStrtok_end]
    exact ⟨_, rfl, rest_end front spare⟩
  have hv : 0 ∉ s.dropWhile (isDelim delim) := fun h => hs (List.dropWhile_suffix _ |>.subset h)
  rw [nextToken, strobStrtok_skip front hs hne, strtok]
  cases hdrop : s.dropWhile (isDelim delim) with
  | nil =>
      have hlast := endToken_none (front ++ s.takeWhile (isDelim delim)) .empty spare
      rw [CString.bytes_empty, CString.strlen_empty, Nat.add_zero, List.nil_append] at hlast
      rw [List.findIdx?_nil, Option.map_none, List.nil_append, hlast, Outcome.returned_bind,
        leaveToken_nil]
      exact ⟨_, rfl, rest_end _ spare⟩
  | cons c l =>
      rw [hdrop] at hv
      have hc : isDelim delim c = false := by
        have hhead := List.head?_dropWhile_not (isDelim delim) s
        rw [hdrop] at hhead
        simpa using hhead
      have htoken : (c :: l).takeWhile (!isDelim delim ·) ≠ [] := by
        rw [List.takeWhile_cons_of_pos (by simp [hc])]
        exact List.cons_ne_nil c _
      obtain ⟨buf', t, hcall, hread, ht, hrest⟩ :=
        endToken_leaveToken (front ++ s.takeWhile (isDelim delim)) hv htoken spare
      refine ⟨buf', ?_, hrest⟩
      rw [hcall, Outcome.returned_bind]
      simp only [hread, Outcome.returned_bind, ht]
      rfl

end StrtokBuf

/-! ## What it is for -/

/-- The longest parts of a string without delimiters, in order: what stands between the
delimiters, without the empty parts. -/
def maximalRuns (delim s : CString) : List Bytes :=
  (s.bytes.splitOnP (isDelim delim)).filter fun t => !t.isEmpty

/-- The calls with NULL return the tokens of the string at `tok_`, and then NULL. -/
theorem strtokCalls_null {delim : CString} {buf : StrtokBuf} {s : Bytes} (h : buf.Rest s) (n : Nat) :
    ∃ buf', strtokCalls delim n .null buf =
      .returned ((List.range n).map fun k => (tokens (isDelim delim) s)[k]?, buf') := by
  induction n generalizing buf s with
  | zero => exact ⟨buf, rfl⟩
  | succ n ih =>
      obtain ⟨buf₁, hcall, hrest⟩ := buf.nextToken_null delim h
      obtain ⟨buf', hcalls⟩ := ih hrest
      refine ⟨buf', ?_⟩
      rw [strtokCalls, hcall]
      simp only [Outcome.returned_bind, hcalls]
      rw [List.range_succ_eq_map, List.map_cons, List.map_map, tokens_eq s]
      cases strtok (isDelim delim) s with
      | none => rfl
      | some p => rfl

/-- The first call puts `tok_` at the beginning of its string. -/
theorem strtokCalls_begin (delim : CString) (s : StrtokArg) (buf : StrtokBuf) {n : Nat} (h : n ≠ 0) :
    strtokCalls delim n s buf = strtokCalls delim n .null (s.begin buf) := by
  obtain ⟨n, rfl⟩ := Nat.exists_eq_succ_of_ne_zero h
  rfl

/-- The calls return the parts of the string one after the other, and then NULL. -/
theorem strobStrtok_runs (delim s : CString) (n : Nat) :
    (∀ buf, ∃ buf', strtokCalls delim n (.other s) buf =
        .returned ((List.range n).map fun k => (maximalRuns delim s)[k]?, buf')) ∧
      ∀ spare tok, ∃ buf', strtokCalls delim n .own ⟨s.bytes ++ 0 :: spare, tok⟩ =
        .returned ((List.range n).map fun k => (maximalRuns delim s)[k]?, buf') := by
  rw [maximalRuns, ← tokens_eq_splitOnP]
  by_cases hn : n = 0
  · subst hn
    exact ⟨fun buf => ⟨buf, rfl⟩, fun spare tok => ⟨_, rfl⟩⟩
  refine ⟨fun buf => ?_, fun spare tok => ?_⟩
  · rw [strtokCalls_begin delim _ buf hn, StrtokArg.begin, overwrite, List.take_zero, List.nil_append,
      List.append_assoc]
    exact strtokCalls_null (StrtokBuf.rest_zero s _) n
  · rw [strtokCalls_begin delim _ _ hn]
    exact strtokCalls_null (StrtokBuf.rest_zero s spare) n

end Swbis.Misc
