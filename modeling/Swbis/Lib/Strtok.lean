import Swbis.Lib.Search

/-!
# Tokens, and `strtok`

`strtok sep s` is one call of the C function: it skips separators, returns the
run up to the next one, and leaves the scan behind the separators that follow.
`tokens sep s` are all the tokens of a list, so a loop over calls is a loop over
`tokens` (`tokens_eq`).  They are what stands between the separators, without the
empty parts (`tokens_eq_splitOnP`).

`strTok delim s` is the same call for a separator of several characters, and
`strTokens delim s` are its tokens (`strTokens_eq`).
-/

namespace CLib

section

variable {α : Type} {sep : α → Bool}

/-- One call: the token, and where the next call goes on. -/
def strtok (sep : α → Bool) (s : List α) : Option (List α × List α) :=
  match s.dropWhile sep with
  | [] => none
  | x :: l =>
      some ((x :: l).takeWhile (fun c => !sep c),
        ((x :: l).dropWhile (fun c => !sep c)).dropWhile sep)

/-- Puts an element before the first token if `joined`, else before all tokens. -/
def consToken (x : α) (joined : Bool) (ts : List (List α)) : List (List α) :=
  if joined then (x :: ts.headD []) :: ts.tail else [x] :: ts

/-- The maximal runs without a separator, in order. -/
def tokens (sep : α → Bool) : List α → List (List α)
  | [] => []
  | x :: l =>
      if sep x then tokens sep l
      else consToken x (l.head?.any fun y => !sep y) (tokens sep l)

theorem tokens_cons_of_sep {x : α} (h : sep x = true) (l : List α) :
    tokens sep (x :: l) = tokens sep l := by
  rw [tokens, if_pos h]

@[simp] theorem tokens_dropWhile (s : List α) : tokens sep (s.dropWhile sep) = tokens sep s := by
  induction s with
  | nil => rfl
  | cons x l ih =>
      by_cases hx : sep x = true
      · rw [List.dropWhile_cons_of_pos hx, ih, tokens_cons_of_sep hx]
      · rw [List.dropWhile_cons_of_neg hx]

/-- A run is one token. -/
theorem tokens_run {t : List α} (hne : t ≠ []) (ht : ∀ x ∈ t, sep x = false) {rest : List α}
    (hrest : ∀ y ∈ rest.head?, sep y = true) :
    tokens sep (t ++ rest) = t :: tokens sep rest := by
  induction t with
  | nil => exact absurd rfl hne
  | cons x t ih =>
      have hx : sep x = false := ht x List.mem_cons_self
      rw [List.cons_append, tokens, if_neg (by simp [hx])]
      cases t with
      | nil =>
          have hjoin : (rest.head?.any fun y => !sep y) = false := by
            cases hr : rest.head? with
            | none => rfl
            | some y => simp [hrest y hr]
          rw [List.nil_append, hjoin]
          rfl
      | cons y t =>
          have hjoin : (((y :: t) ++ rest).head?.any fun y => !sep y) = true := by
            simp [ht y (List.mem_cons_of_mem _ List.mem_cons_self)]
          rw [hjoin, ih nofun fun z hz => ht z (List.mem_cons_of_mem _ hz)]
          rfl

/-- The tokens are what the calls return. -/
theorem tokens_eq (s : List α) :
    tokens sep s = match strtok sep s with
      | none => []
      | some (t, rest) => t :: tokens sep rest := by
  rw [← tokens_dropWhile, strtok]
  cases hs : s.dropWhile sep with
  | nil => rfl
  | cons x l =>
      have hx : sep x = false := by
        have hhead := List.head?_dropWhile_not sep s
        rw [hs] at hhead
        simpa using hhead
      dsimp only
      rw [tokens_dropWhile]
      refine Eq.trans (congrArg (tokens sep) (List.takeWhile_append_dropWhile).symm) (tokens_run ?_ ?_ ?_)
      · rw [List.takeWhile_cons_of_pos (by simp [hx])]
        exact nofun
      · intro y hy
        simpa using List.mem_takeWhile_imp hy
      · intro y hy
        have hhead := List.head?_dropWhile_not (fun c => !sep c) (x :: l)
        rw [Option.mem_def.mp hy] at hhead
        simpa using hhead

/-- The first part is empty if a separator stands in front, or nothing at all. -/
theorem splitOnP_head_eq_nil (l : List α) {t : List α} {ts : List (List α)}
    (h : l.splitOnP sep = t :: ts) : t = [] ↔ (l.head?.any fun y => !sep y) = false := by
  cases l with
  | nil =>
      rw [List.splitOnP_nil] at h
      cases h
      exact iff_of_true rfl rfl
  | cons y l =>
      rw [List.splitOnP_cons_eq_if_modifyHead] at h
      by_cases hy : sep y = true
      · rw [if_pos hy] at h
        cases h
        exact iff_of_true rfl (by simp [hy])
      · obtain ⟨u, us, hu⟩ := List.exists_cons_of_ne_nil (List.splitOnP_ne_nil sep l)
        rw [if_neg hy, hu] at h
        cases h
        exact iff_of_false nofun (by simp [hy])

/-- The tokens are the parts between the separators that are not empty. -/
theorem tokens_eq_splitOnP (s : List α) :
    tokens sep s = (s.splitOnP sep).filter fun t => !t.isEmpty := by
  induction s with
  | nil => rfl
  | cons x l ih =>
      obtain ⟨t, ts, hl⟩ := List.exists_cons_of_ne_nil (List.splitOnP_ne_nil sep l)
      have hhead := splitOnP_head_eq_nil l hl
      rw [hl] at ih
      rw [tokens, ih, List.splitOnP_cons_eq_if_modifyHead, hl]
      by_cases hx : sep x = true
      · rw [if_pos hx, if_pos hx]
        rfl
      rw [if_neg hx, if_neg hx, consToken, List.modifyHead_cons]
      cases t with
      | nil =>
          rw [hhead.mp rfl, if_neg Bool.false_ne_true]
          rfl
      | cons y t =>
          have hjoin : (l.head?.any fun y => !sep y) = true :=
            (Bool.not_eq_false _).mp fun hnone => nomatch hhead.mpr hnone
          rw [if_pos hjoin]
          rfl

/-- Every token is a nonempty run without separators. -/
theorem mem_tokens {s t : List α} (h : t ∈ tokens sep s) :
    t ≠ [] ∧ ∀ x ∈ t, sep x = false ∧ x ∈ s := by
  induction s generalizing t with
  | nil => cases h
  | cons x l ih =>
      have hlift : ∀ {u : List α}, u ∈ tokens sep l → u ≠ [] ∧ ∀ y ∈ u, sep y = false ∧ y ∈ x :: l :=
        fun hu => ⟨(ih hu).1, fun y hy =>
          ⟨((ih hu).2 y hy).1, List.mem_cons_of_mem _ ((ih hu).2 y hy).2⟩⟩
      rw [tokens] at h
      split at h
      next => exact hlift h
      next hx =>
        have hxs : sep x = false ∧ x ∈ x :: l := ⟨by simpa using hx, List.mem_cons_self⟩
        rw [consToken] at h
        split at h
        next =>
          rcases List.mem_cons.mp h with rfl | h
          · refine ⟨nofun, fun y hy => ?_⟩
            rcases List.mem_cons.mp hy with rfl | hy
            · exact hxs
            · cases hts : tokens sep l with
              | nil =>
                  rw [hts] at hy
                  cases hy
              | cons u ts =>
                  rw [hts] at hy
                  exact (hlift (by rw [hts]; exact List.mem_cons_self)).2 y hy
          · exact hlift (List.mem_of_mem_tail h)
        next =>
          rcases List.mem_cons.mp h with rfl | h
          · refine ⟨nofun, fun y hy => ?_⟩
            rw [List.mem_singleton.mp hy]
            exact hxs
          · exact hlift h

/-- Tokens written out, each with a separator behind it, are those tokens. -/
theorem tokens_flatMap {ts : List (List α)} {d : α} (hd : sep d = true)
    (hts : ∀ t ∈ ts, t ≠ [] ∧ ∀ x ∈ t, sep x = false) :
    tokens sep (ts.flatMap fun t => t ++ [d]) = ts := by
  induction ts with
  | nil => rfl
  | cons t ts ih =>
      obtain ⟨hne, ht⟩ := hts t List.mem_cons_self
      rw [List.flatMap_cons, List.append_assoc, List.singleton_append,
        tokens_run hne ht (by simpa using hd), tokens_cons_of_sep hd,
        ih fun u hu => hts u (List.mem_cons_of_mem _ hu)]

/-- Tokens joined by a separator are those tokens. -/
theorem tokens_intercalate {ts : List (List α)} {d : α} (hd : sep d = true)
    (hts : ∀ t ∈ ts, t ≠ [] ∧ ∀ x ∈ t, sep x = false) :
    tokens sep (List.intercalate [d] ts) = ts := by
  induction ts with
  | nil => rfl
  | cons t ts ih =>
      obtain ⟨hne, ht⟩ := hts t List.mem_cons_self
      cases ts with
      | nil =>
          rw [List.intercalate_singleton, ← List.append_nil t, tokens_run hne ht (by simp)]
          simp [tokens]
      | cons u ts =>
          rw [List.intercalate_cons_cons, List.append_assoc, List.singleton_append,
            tokens_run hne ht (by simpa using hd), tokens_cons_of_sep hd,
            ih fun v hv => hts v (List.mem_cons_of_mem _ hv)]

theorem tokens_cons_of_not_sep {x : α} (h : ¬sep x = true) (l : List α) :
    ∃ t ts, tokens sep (x :: l) = t :: ts := by
  rw [tokens, if_neg h, consToken]
  split
  next => exact ⟨_, _, rfl⟩
  next => exact ⟨_, _, rfl⟩

/-- Tokens on both sides of a separator. -/
theorem tokens_append {d : α} (hd : sep d = true) (p q : List α) :
    tokens sep (p ++ d :: q) = tokens sep p ++ tokens sep q := by
  induction p with
  | nil => rw [List.nil_append, tokens_cons_of_sep hd, tokens, List.nil_append]
  | cons x p ih =>
      rw [List.cons_append, tokens, tokens, ih]
      by_cases hx : sep x = true
      · rw [if_pos hx, if_pos hx]
      · rw [if_neg hx, if_neg hx]
        cases p with
        | nil => simp [consToken, hd, tokens]
        | cons y p =>
            by_cases hy : sep y = true
            · simp [consToken, hy]
            · obtain ⟨t, ts, hts⟩ := tokens_cons_of_not_sep hy p
              simp [consToken, hy, hts]

/-- A token is a part of the list. -/
theorem infix_of_mem_tokens {s t : List α} (h : t ∈ tokens sep s) : t <:+: s := by
  induction hn : s.length using Nat.strongRecOn generalizing s with
  | ind n ih =>
      rw [tokens_eq, strtok] at h
      cases hs : s.dropWhile sep with
      | nil =>
          rw [hs] at h
          cases h
      | cons x l =>
          have hsuffix : x :: l <:+ s := hs ▸ List.dropWhile_suffix sep
          have hx : sep x = false := by
            have hhead := List.head?_dropWhile_not sep s
            rw [hs] at hhead
            simpa using hhead
          rw [hs] at h
          rcases List.mem_cons.mp h with rfl | h
          · exact (List.takeWhile_prefix _).isInfix.trans hsuffix.isInfix
          · rw [tokens_dropWhile, List.dropWhile_cons_of_pos (by simp [hx])] at h
            have hrest : l.dropWhile (fun c => !sep c) <:+ s :=
              (List.dropWhile_suffix _).trans ((List.suffix_cons x l).trans hsuffix)
            have hlt : (l.dropWhile fun c => !sep c).length < n := by
              have hle := (List.dropWhile_suffix (fun c => !sep c) (l := l)).length_le
              have hlen := hsuffix.length_le
              rw [List.length_cons] at hlen
              omega
            exact (ih _ hlt h rfl).trans hrest.isInfix

end

/-! ## Separators of several characters -/

section

variable {α : Type} [DecidableEq α] {delim : List α}

/-- Skips a separator as long as one stands at the front. -/
def dropDelims (delim : List α) : Nat → List α → List α
  | 0, s => s
  | fuel + 1, s => if delim.isPrefixOf s then dropDelims delim fuel (s.drop delim.length) else s

/-- One call: the token, and where the next call goes on. -/
def strTok (delim s : List α) : Option (List α × List α) :=
  match dropDelims delim s.length s with
  | [] => none
  | x :: l =>
      match findSub delim (x :: l) with
      | none => some (x :: l, [])
      | some i =>
          let rest := (x :: l).drop (i + delim.length)
          some ((x :: l).take i, dropDelims delim rest.length rest)

/-- The tokens of so many calls. -/
def strTokensUpTo (delim : List α) : Nat → List α → List (List α)
  | 0, _ => []
  | calls + 1, s =>
      match strTok delim s with
      | none => []
      | some (t, rest) => t :: strTokensUpTo delim calls rest

/-- The tokens of all calls. -/
def strTokens (delim s : List α) : List (List α) := strTokensUpTo delim s.length s

theorem length_dropDelims_le (fuel : Nat) (s : List α) :
    (dropDelims delim fuel s).length ≤ s.length := by
  induction fuel generalizing s with
  | zero => exact Nat.le_refl _
  | succ fuel ih =>
      rw [dropDelims]
      split
      next => exact Nat.le_trans (ih _) (by rw [List.length_drop]; omega)
      next => exact Nat.le_refl _

/-- A call that gives a token goes on. -/
theorem strTok_rest_lt (hne : delim ≠ []) {s t rest : List α} (h : strTok delim s = some (t, rest)) :
    rest.length < s.length := by
  have hle : (dropDelims delim s.length s).length ≤ s.length := length_dropDelims_le s.length s
  rw [strTok] at h
  cases hs : dropDelims delim s.length s with
  | nil => simp [hs] at h
  | cons x l =>
      rw [hs, List.length_cons] at hle
      rw [hs] at h
      dsimp only at h
      cases hi : findSub delim (x :: l) with
      | none =>
          rw [hi] at h
          cases h
          rw [List.length_nil]
          omega
      | some i =>
          rw [hi] at h
          cases h
          have hdelim := List.length_pos_iff.mpr hne
          refine Nat.lt_of_le_of_lt (length_dropDelims_le _ _) ?_
          rw [List.length_drop, List.length_cons]
          omega

theorem strTokensUpTo_eq (hne : delim ≠ []) {calls : Nat} {s : List α} (h : s.length ≤ calls) :
    strTokensUpTo delim calls s = strTokensUpTo delim s.length s := by
  induction calls using Nat.strongRecOn generalizing s with
  | ind calls ih =>
      cases calls with
      | zero => rw [Nat.le_zero.mp h]
      | succ calls =>
          cases hlen : s.length with
          | zero =>
              rw [List.length_eq_zero_iff.mp hlen, strTokensUpTo, strTokensUpTo]
              rfl
          | succ n =>
              rw [strTokensUpTo, strTokensUpTo]
              cases hs : strTok delim s with
              | none => rfl
              | some p =>
                  obtain ⟨t, rest⟩ := p
                  have hlt := strTok_rest_lt hne hs
                  dsimp only
                  rw [ih calls (Nat.lt_succ_self calls) (by omega), ih n (by omega) (by omega)]

/-- The tokens are what the calls return. -/
theorem strTokens_eq (hne : delim ≠ []) (s : List α) :
    strTokens delim s = match strTok delim s with
      | none => []
      | some (t, rest) => t :: strTokens delim rest := by
  cases hlen : s.length with
  | zero =>
      rw [List.length_eq_zero_iff.mp hlen]
      rfl
  | succ n =>
      rw [strTokens, hlen, strTokensUpTo]
      cases hs : strTok delim s with
      | none => rfl
      | some p =>
          obtain ⟨t, rest⟩ := p
          have hlt := strTok_rest_lt hne hs
          dsimp only
          rw [strTokens, strTokensUpTo_eq hne (by omega)]

end

end CLib
