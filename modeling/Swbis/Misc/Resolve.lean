import Mathlib.Data.List.Basic
import Mathlib.Data.List.Induction
import Swbis.Misc.Vrealpath

/-!
# The resolved path

Resolving a path by its text drops each `.` and cancels each `..` against the
component before it.  Where there is none to cancel, an absolute path stays in
`/`, and a relative one either keeps the `..` or drops it.

The loop of `swlib_vrealpath` keeps the resolved path as text.  It is the text of
the same stack of components, but the slash in front of an absolute one is only
there once a `..` has come down to the root.
-/

namespace Swbis.Misc

open CLib

/-! ## Resolving by the components -/

/-- One component, on a stack with the last component on top.  A `..` with
nothing to cancel is dropped, or else kept. -/
def lexicalStep (drop : Bool) (stack : List Bytes) (c : Bytes) : List Bytes :=
  if c = [dot] then stack
  else if c = dotDot then
    match stack with
    | [] => if drop then [] else [dotDot]
    | top :: up => if top = dotDot then dotDot :: top :: up else up
  else c :: stack

def lexicalStack (drop : Bool) (cs : List Bytes) : List Bytes := cs.foldl (lexicalStep drop) []

/-- The components, resolved. -/
def lexical (drop : Bool) (cs : List Bytes) : List Bytes := (lexicalStack drop cs).reverse

/-- The path, resolved.  `drop` is for a relative path. -/
def lexicalPath (drop : Bool) (path : Bytes) : Bytes :=
  if path.head? = some slash then
    slash :: List.intercalate [slash] (lexical true (components path))
  else List.intercalate [slash] (lexical drop (components path))

/-- The resolved path and the depth are those of the path's components. -/
def ResolvesLexically (drop : Bool) (vpwd ppath : Bytes) : Prop :=
  let path := vrealpathText vpwd ppath
  (swlibVrealpath vpwd ppath).resolvedPath = lexicalPath drop path ∧
    (swlibVrealpath vpwd ppath).count =
      (names (components path) : Int) - dotDots (components path)

/-- On the way a `..` comes down to the root, or is already there. -/
def TouchesRoot (cs : List Bytes) : Prop :=
  ∃ before after, cs = before ++ dotDot :: after ∧ lexical true (before ++ [dotDot]) = []

theorem touchesRoot_concat {cs : List Bytes} {c : Bytes} :
    TouchesRoot (cs ++ [c]) ↔
      TouchesRoot cs ∨ c = dotDot ∧ lexicalStack true (cs ++ [dotDot]) = [] := by
  constructor
  · rintro ⟨before, after, heq, hroot⟩
    cases after using List.reverseRecOn with
    | nil =>
        obtain ⟨rfl, hc⟩ := List.append_inj' heq rfl
        exact .inr ⟨List.singleton_inj.mp hc, List.reverse_eq_nil_iff.mp hroot⟩
    | append_singleton after c' =>
        rw [← List.cons_append, ← List.append_assoc] at heq
        obtain ⟨rfl, -⟩ := List.append_inj' heq rfl
        exact .inl ⟨before, after, rfl, hroot⟩
  · rintro (⟨before, after, rfl, hroot⟩ | ⟨rfl, hroot⟩)
    · refine ⟨before, after ++ [c], ?_, hroot⟩
      rw [List.append_assoc, List.cons_append]
    · exact ⟨cs, [], rfl, List.reverse_eq_nil_iff.mpr hroot⟩

/-! ## The stack without `..` -/

/-- Components of a path other than `..`. -/
def Plain (stack : List Bytes) : Prop := ∀ c ∈ stack, c ≠ [] ∧ slash ∉ c ∧ c ≠ dotDot

theorem lexicalStep_dot (drop : Bool) (stack : List Bytes) :
    lexicalStep drop stack [dot] = stack := if_pos rfl

theorem lexicalStep_name {c : Bytes} (hd : c ≠ [dot]) (hdd : c ≠ dotDot) (drop : Bool)
    (stack : List Bytes) : lexicalStep drop stack c = c :: stack := by
  rw [lexicalStep.eq_def, if_neg hd, if_neg hdd]

theorem lexicalStep_up {stack : List Bytes} (h : Plain stack) :
    lexicalStep true stack dotDot = stack.tail := by
  rw [lexicalStep.eq_def, if_neg (by decide), if_pos rfl]
  cases stack with
  | nil => rfl
  | cons top up =>
      have hne := (h top List.mem_cons_self).2.2
      dsimp only
      rw [if_neg hne]
      rfl

theorem lexicalStack_concat (drop : Bool) (cs : List Bytes) (c : Bytes) :
    lexicalStack drop (cs ++ [c]) = lexicalStep drop (lexicalStack drop cs) c := by
  rw [lexicalStack, List.foldl_append]
  rfl

theorem plain_lexicalStack {cs : List Bytes} (hcs : ∀ c ∈ cs, c ≠ [] ∧ slash ∉ c) :
    Plain (lexicalStack true cs) := by
  induction cs using List.reverseRecOn with
  | nil => exact nofun
  | append_singleton cs c ih =>
      have hplain := ih fun d hd => hcs d (List.mem_append_left _ hd)
      rw [lexicalStack_concat]
      by_cases hd : c = [dot]
      · rwa [hd, lexicalStep_dot]
      · by_cases hdd : c = dotDot
        · rw [hdd, lexicalStep_up hplain]
          exact fun d hd => hplain d (List.mem_of_mem_tail hd)
        · rw [lexicalStep_name hd hdd]
          intro d hd
          rcases List.mem_cons.mp hd with rfl | hd
          · obtain ⟨hne, hs⟩ := hcs d (List.mem_append_right _ (List.mem_singleton_self d))
            exact ⟨hne, hs, hdd⟩
          · exact hplain d hd

/-! ## The text of a stack -/

theorem intercalate_concat {α : Type} (d : α) {ts : List (List α)} (hts : ts ≠ []) (t : List α) :
    List.intercalate [d] (ts ++ [t]) = List.intercalate [d] ts ++ d :: t := by
  induction ts with
  | nil => exact absurd rfl hts
  | cons u ts ih =>
      rw [List.cons_append, List.intercalate_cons_of_ne_nil (by simp)]
      by_cases hnil : ts = []
      · subst hnil
        rw [List.nil_append, List.intercalate_singleton, List.intercalate_singleton,
          List.append_assoc]
        rfl
      · rw [ih hnil, List.intercalate_cons_of_ne_nil hnil, List.append_assoc, List.append_assoc,
          List.append_assoc]

/-- The components joined by slashes, the top one last. -/
def joined (stack : List Bytes) : Bytes := List.intercalate [slash] stack.reverse

@[simp] theorem joined_nil : joined [] = [] := rfl

@[simp] theorem joined_singleton (c : Bytes) : joined [c] = c := List.intercalate_singleton

theorem joined_cons {up : List Bytes} (h : up ≠ []) (c : Bytes) :
    joined (c :: up) = joined up ++ slash :: c := by
  rw [joined, List.reverse_cons, intercalate_concat slash (by simpa using h), joined]

theorem components_joined {stack : List Bytes} (h : ∀ c ∈ stack, c ≠ [] ∧ slash ∉ c) :
    components (joined stack) = stack.reverse := by
  refine tokens_intercalate rfl fun t ht => ?_
  obtain ⟨hne, hs⟩ := h t (List.mem_reverse.mp ht)
  refine ⟨hne, fun x hx => beq_eq_false_iff_ne.mpr ?_⟩
  rintro rfl
  exact hs hx

theorem joined_ne_nil {stack : List Bytes} (h : Plain stack) (hne : stack ≠ []) :
    joined stack ≠ [] := by
  intro hnil
  have hcomps := components_joined fun c hc => ⟨(h c hc).1, (h c hc).2.1⟩
  rw [hnil] at hcomps
  exact hne (List.reverse_eq_nil_iff.mp hcomps.symm)

/-- The text ends in the last byte of the last component. -/
theorem getLast?_joined {c : Bytes} (hc : c ≠ []) (up : List Bytes) :
    (joined (c :: up)).getLast? = c.getLast? := by
  by_cases hup : up = []
  · rw [hup, joined_singleton]
  · rw [joined_cons hup, List.getLast?_append_of_ne_nil _ (List.cons_ne_nil _ _),
      List.getLast?_cons_of_ne_nil hc]

/-- It starts with the first byte of a component. -/
theorem head?_joined {stack : List Bytes} (h : Plain stack) :
    (joined stack).head? ≠ some slash := by
  induction stack with
  | nil => exact nofun
  | cons c up ih =>
      have hplain : Plain up := fun d hd => h d (List.mem_cons_of_mem _ hd)
      by_cases hup : up = []
      · subst hup
        rw [joined_singleton]
        intro hhead
        exact (h c List.mem_cons_self).2.1 (List.mem_of_mem_head? hhead)
      · rw [joined_cons hup, List.head?_append_of_ne_nil _ (joined_ne_nil hplain hup)]
        exact ih hplain

/-! ## The resolved path of the loop -/

/-- The slash of an absolute path, when it is there. -/
def rootText (rooted : Bool) : Bytes := if rooted then [slash] else []

/-- A name is put behind a slash, except as the first component. -/
theorem resolvedAdd_joined {isAbsolutePath rooted : Bool} {stack : List Bytes} {compcount : Nat}
    (h : Plain stack) (hfirst : compcount = 0 → stack = []) {s : Bytes} :
    resolvedAdd isAbsolutePath compcount (rootText rooted ++ joined stack) s =
      rootText rooted ++ joined (s :: stack) := by
  cases stack with
  | nil =>
      rw [joined_nil, List.append_nil, joined_singleton, resolvedAdd, if_neg]
      rintro ⟨-, hne, hlast⟩
      cases rooted with
      | false => exact hne rfl
      | true => exact hlast rfl
  | cons c up =>
      have hc := h c List.mem_cons_self
      have hcount : compcount ≠ 0 := fun h0 => List.cons_ne_nil _ _ (hfirst h0)
      have hne := joined_ne_nil h (List.cons_ne_nil _ _)
      rw [resolvedAdd, if_pos, joined_cons (List.cons_ne_nil _ _), List.append_assoc]
      refine ⟨.inr hcount, List.append_ne_nil_of_right_ne_nil _ hne, ?_⟩
      rw [List.getLast?_append_of_ne_nil _ hne, getLast?_joined hc.1]
      intro hlast
      exact hc.2.1 (List.mem_of_getLast? hlast)

theorem bne_slash_of_not_mem {path : Bytes} (h : slash ∉ path) :
    ∀ b ∈ path.reverse, (b != slash) = true := by
  intro b hb
  refine bne_iff_ne.mpr ?_
  rintro rfl
  exact h (List.mem_reverse.mp hb)

theorem cutLastSlash_none {path : Bytes} (h : slash ∉ path) (rooted : Bool) :
    cutLastSlash (rootText rooted ++ path) = none := by
  have hrun := bne_slash_of_not_mem h
  rw [cutLastSlash, if_pos]
  cases rooted with
  | false =>
      have hnil : path.reverse.dropWhile (· != slash) = [] := List.dropWhile_eq_nil_iff.mpr hrun
      change ((path.reverse).dropWhile (· != slash)).drop 1 = []
      rw [hnil, List.drop_nil]
  | true =>
      change ((slash :: path).reverse.dropWhile (· != slash)).drop 1 = []
      rw [List.reverse_cons, dropWhile_append_stop hrun (bne_self_eq_false slash)]
      rfl

theorem cutLastSlash_some {dir c : Bytes} (hdir : dir ≠ []) (hc : slash ∉ c) :
    cutLastSlash (dir ++ slash :: c) = some dir := by
  have hcut : ((dir ++ slash :: c).reverse.dropWhile (· != slash)).drop 1 = dir.reverse := by
    rw [List.reverse_append, List.reverse_cons, List.append_assoc, List.singleton_append,
      dropWhile_append_stop (bne_slash_of_not_mem hc) (bne_self_eq_false slash)]
    rfl
  simp only [cutLastSlash, hcut]
  rw [if_neg (by simpa using hdir), List.reverse_reverse]

/-- A `..` takes the last component off.  With none left an absolute path is the
root. -/
theorem resolvedUp_joined {isAbsolutePath rooted : Bool} {stack : List Bytes} {count : Int}
    (h : Plain stack) (hcount : count ≤ stack.length) :
    resolvedUp isAbsolutePath (count - 1) (rootText rooted ++ joined stack) =
      rootText (if stack.tail = [] then isAbsolutePath else rooted) ++ joined stack.tail := by
  -- with at most one component there is no slash to cut at, and the count is at most 0
  have hroot : ∀ c, slash ∉ c → stack.length ≤ 1 →
      resolvedUp isAbsolutePath (count - 1) (rootText rooted ++ c) =
        rootText isAbsolutePath ++ joined [] := by
    intro c hc hlen
    rw [resolvedUp, cutLastSlash_none hc]
    dsimp only
    rw [if_pos (by omega)]
    cases isAbsolutePath with
    | false => rfl
    | true => rfl
  cases stack with
  | nil => exact hroot [] List.not_mem_nil (Nat.zero_le 1)
  | cons c up =>
      have hc := (h c List.mem_cons_self).2.1
      cases up with
      | nil =>
          rw [joined_singleton]
          exact hroot c hc (Nat.le_refl 1)
      | cons c' up =>
          have hplain : Plain (c' :: up) := fun d hd => h d (List.mem_cons_of_mem _ hd)
          have hne := joined_ne_nil hplain (List.cons_ne_nil _ _)
          rw [joined_cons (List.cons_ne_nil _ _), ← List.append_assoc, resolvedUp,
            cutLastSlash_some (List.append_ne_nil_of_right_ne_nil _ hne) hc]
          rfl

/-- What the loop has made of the components `cs`. -/
structure Resolving (isAbsolutePath : Bool) (cs : List Bytes) (v : Vrealpath) : Prop where
  path : ∃ rooted, (rooted = true ↔ isAbsolutePath = true ∧ TouchesRoot cs) ∧
    v.resolvedPath = rootText rooted ++ joined (lexicalStack true cs)
  count : v.count ≤ (lexicalStack true cs).length
  compcount : v.compcount = 0 → lexicalStack true cs = []

theorem resolving_nil (isAbsolutePath : Bool) : Resolving isAbsolutePath [] {} where
  path := by
    refine ⟨false, iff_of_false Bool.false_ne_true ?_, rfl⟩
    rintro ⟨-, before, after, heq, -⟩
    exact List.append_ne_nil_of_right_ne_nil before (List.cons_ne_nil _ _) heq.symm
  count := Int.le_refl 0
  compcount _ := rfl

/-- Squashing the leading slash changes nothing in a relative path. -/
theorem squashLeadingSlash_joined {stack : List Bytes} (h : Plain stack) :
    swlibSquashLeadingSlash (joined stack) = joined stack :=
  if_neg (head?_joined h)

theorem relative_rootText {isAbsolutePath rooted : Bool} {stack : List Bytes} (h : Plain stack)
    (hrooted : rooted = true → isAbsolutePath = true) :
    (if isAbsolutePath then rootText rooted ++ joined stack
      else swlibSquashLeadingSlash (rootText rooted ++ joined stack)) =
      rootText rooted ++ joined stack := by
  cases isAbsolutePath with
  | true => rfl
  | false =>
      cases rooted with
      | true => cases hrooted rfl
      | false => exact squashLeadingSlash_joined h

/-- The loop keeps the text of the stack. -/
theorem Resolving.step {isAbsolutePath : Bool} {cs : List Bytes} {v : Vrealpath} {c : Bytes}
    (h : Resolving isAbsolutePath cs v) (hcs : ∀ d ∈ cs ++ [c], d ≠ [] ∧ slash ∉ d) :
    Resolving isAbsolutePath (cs ++ [c]) (vrealpathStep isAbsolutePath v c) := by
  obtain ⟨⟨rooted, hrooted, hpath⟩, hcount, hfirst⟩ := h
  have hplain : Plain (lexicalStack true cs) :=
    plain_lexicalStack fun d hd => hcs d (List.mem_append_left _ hd)
  have hplain' := plain_lexicalStack hcs
  have hconcat := lexicalStack_concat true cs c
  rw [vrealpathStep]
  by_cases hdd : c = dotDot
  · subst hdd
    rw [lexicalStep_up hplain] at hconcat
    rw [hconcat] at hplain'
    have hroot : (if (lexicalStack true cs).tail = [] then isAbsolutePath else rooted) = true ↔
        isAbsolutePath = true ∧ TouchesRoot (cs ++ [dotDot]) := by
      rw [touchesRoot_concat, hconcat, eq_self, true_and]
      split
      next hnil => exact ⟨fun habs => ⟨habs, .inr hnil⟩, fun habs => habs.1⟩
      next hne => rw [hrooted, or_iff_left hne]
    rw [if_pos rfl]
    refine ⟨⟨_, hroot, ?_⟩, ?_, ?_⟩
    · rw [hconcat, hpath, resolvedUp_joined hplain hcount]
      exact relative_rootText hplain' fun h => (hroot.mp h).1
    · rw [hconcat, List.length_tail]
      dsimp only
      omega
    · intro h0
      rw [hconcat, hfirst h0]
      rfl
  · have htouch : TouchesRoot (cs ++ [c]) ↔ TouchesRoot cs := by
      rw [touchesRoot_concat, or_iff_left fun hup => hdd hup.1]
    rw [if_neg hdd]
    by_cases hd : c = [dot]
    · rw [hd, lexicalStep_dot] at hconcat
      rw [if_pos hd]
      refine ⟨⟨rooted, by rw [htouch, hrooted], ?_⟩, ?_, ?_⟩
      · rw [hd, hconcat, hpath]
        exact relative_rootText hplain fun h => (hrooted.mp h).1
      · rw [hd, hconcat]
        exact hcount
      · rw [hd, hconcat]
        exact hfirst
    · rw [lexicalStep_name hd hdd] at hconcat
      rw [hconcat] at hplain'
      rw [if_neg hd]
      refine ⟨⟨rooted, by rw [htouch, hrooted], ?_⟩, ?_, ?_⟩
      · rw [hconcat, hpath, resolvedAdd_joined hplain hfirst]
        exact relative_rootText hplain' fun h => (hrooted.mp h).1
      · rw [hconcat, List.length_cons]
        dsimp only
        omega
      · intro h0
        cases h0

theorem resolving_foldl (isAbsolutePath : Bool) {cs : List Bytes}
    (hcs : ∀ d ∈ cs, d ≠ [] ∧ slash ∉ d) :
    Resolving isAbsolutePath cs (cs.foldl (vrealpathStep isAbsolutePath) {}) := by
  induction cs using List.reverseRecOn with
  | nil => exact resolving_nil isAbsolutePath
  | append_singleton cs c ih =>
      rw [List.foldl_append]
      exact (ih fun d hd => hcs d (List.mem_append_left _ hd)).step hcs

/-! ## A relative path that keeps its `..` -/

/-- The kept `..` lie under what is left of the stack without them.  There are
none exactly when no `..` leaves the directory where the path starts. -/
theorem foldl_keep (cs stack : List Bytes) (h : dotDot ∉ stack) (k : Nat) :
    ∃ k', cs.foldl (lexicalStep false) (stack ++ List.replicate k dotDot) =
        cs.foldl (lexicalStep true) stack ++ List.replicate k' dotDot ∧
      (k' = 0 ↔ k = 0 ∧ (walk stack cs).isSome = true) := by
  induction cs generalizing stack k with
  | nil => exact ⟨k, rfl, (and_iff_left rfl).symm⟩
  | cons c cs ih =>
      rw [List.foldl_cons, List.foldl_cons, walk.eq_def]
      dsimp only
      by_cases hd : c = [dot]
      · rw [if_pos hd, hd, lexicalStep_dot, lexicalStep_dot]
        exact ih stack h k
      · rw [if_neg hd]
        by_cases hdd : c = dotDot
        · rw [if_pos hdd, hdd]
          cases stack with
          | nil =>
              have hkeep : lexicalStep false (List.replicate k dotDot) dotDot =
                  List.replicate (k + 1) dotDot := by
                cases k with
                | zero => rfl
                | succ k => rfl
              obtain ⟨k', hk', hzero⟩ := ih [] List.not_mem_nil (k + 1)
              refine ⟨k', ?_, ?_⟩
              · rw [List.nil_append, hkeep]
                exact hk'
              · rw [hzero]
                exact iff_of_false (fun hz => absurd hz.1 (Nat.succ_ne_zero k)) (by simp)
          | cons top up =>
              have htop : top ≠ dotDot := fun he => h (he ▸ List.mem_cons_self)
              have hstep : ∀ drop rest, lexicalStep drop (top :: rest) dotDot = rest := by
                intro drop rest
                rw [lexicalStep.eq_def, if_neg (by decide), if_pos rfl]
                exact if_neg htop
              rw [List.cons_append, hstep, hstep]
              exact ih up (fun hm => h (List.mem_cons_of_mem _ hm)) k
        · rw [if_neg hdd, lexicalStep_name hd hdd, lexicalStep_name hd hdd]
          refine ih (c :: stack) (fun hm => ?_) k
          rcases List.mem_cons.mp hm with he | hm
          · exact hdd he.symm
          · exact h hm

theorem joined_keep_iff {cs : List Bytes} (hcs : ∀ c ∈ cs, c ≠ [] ∧ slash ∉ c) :
    joined (lexicalStack true cs) = joined (lexicalStack false cs) ↔
      (walk [] cs).isSome = true := by
  obtain ⟨k, hk, hzero⟩ := foldl_keep cs [] List.not_mem_nil 0
  have hplain := plain_lexicalStack hcs
  rw [← hzero.trans (and_iff_right rfl)]
  have hstack : lexicalStack false cs = lexicalStack true cs ++ List.replicate k dotDot := hk
  constructor
  · intro heq
    have hcomps := congrArg components heq
    have hall : ∀ c ∈ lexicalStack false cs, c ≠ [] ∧ slash ∉ c := by
      rw [hstack]
      intro c hc
      rcases List.mem_append.mp hc with hc | hc
      · exact ⟨(hplain c hc).1, (hplain c hc).2.1⟩
      · rw [List.eq_of_mem_replicate hc]
        exact ⟨List.cons_ne_nil _ _, by decide⟩
    rw [components_joined fun c hc => ⟨(hplain c hc).1, (hplain c hc).2.1⟩,
      components_joined hall, hstack] at hcomps
    have hlen := congrArg List.length hcomps
    rw [List.length_reverse, List.length_reverse, List.length_append, List.length_replicate] at hlen
    omega
  · rintro rfl
    rw [hstack, List.replicate_zero, List.append_nil]

/-! ## What `swlib_vrealpath` returns -/

theorem mem_components {path c : Bytes} (h : c ∈ components path) : c ≠ [] ∧ slash ∉ c := by
  obtain ⟨hne, hsep⟩ := mem_tokens h
  exact ⟨hne, fun hs => by cases (hsep slash hs).1⟩

/-- A leading `.` changes nothing. -/
theorem lexicalStack_dot (drop : Bool) (cs : List Bytes) :
    lexicalStack drop ([dot] :: cs) = lexicalStack drop cs := by
  rw [lexicalStack, List.foldl_cons, lexicalStep_dot, lexicalStack]

theorem touchesRoot_dot (cs : List Bytes) : TouchesRoot ([dot] :: cs) ↔ TouchesRoot cs := by
  constructor
  · rintro ⟨before, after, heq, hroot⟩
    cases before with
    | nil => exact absurd (List.cons.inj heq).1 (by decide)
    | cons b before =>
        obtain ⟨rfl, hrest⟩ := List.cons.inj heq
        refine ⟨before, after, hrest, ?_⟩
        rw [lexical, List.cons_append, lexicalStack_dot] at hroot
        exact hroot
  · rintro ⟨before, after, rfl, hroot⟩
    refine ⟨[dot] :: before, after, rfl, ?_⟩
    rw [lexical, List.cons_append, lexicalStack_dot]
    exact hroot

theorem isAbsolute_vrealpathText (vpwd ppath : Bytes) :
    ((if vpwd = [] then ppath else vpwd).head? == some slash) =
      ((vrealpathText vpwd ppath).head? == some slash) := by
  rw [vrealpathText]
  cases vpwd with
  | nil => rfl
  | cons b vpwd =>
      rw [if_neg (List.cons_ne_nil _ _), if_neg (List.cons_ne_nil _ _)]
      split
      next => rfl
      next => rfl

theorem Resolving.cons_dot {isAbsolutePath : Bool} {cs : List Bytes} {v : Vrealpath}
    (h : Resolving isAbsolutePath cs v) : Resolving isAbsolutePath ([dot] :: cs) v where
  path := by
    rw [touchesRoot_dot, lexicalStack_dot]
    exact h.path
  count := by
    rw [lexicalStack_dot]
    exact h.count
  compcount := by
    rw [lexicalStack_dot]
    exact h.compcount

theorem swlibVrealpath_resolving (vpwd ppath : Bytes) :
    Resolving ((vrealpathText vpwd ppath).head? == some slash)
      (components (vrealpathText vpwd ppath)) (swlibVrealpath vpwd ppath) := by
  have hclean : Resolving ((vrealpathText vpwd ppath).head? == some slash)
      (components (swlibSlashclean (vrealpathText vpwd ppath))) (swlibVrealpath vpwd ppath) := by
    rw [← isAbsolute_vrealpathText]
    exact resolving_foldl _ fun d hd => mem_components hd
  rcases components_swlibSlashclean (vrealpathText vpwd ppath) with h | h
  · rwa [h] at hclean
  · rw [h]
    exact hclean.cons_dot

/-- The depth is always that of the components. -/
theorem swlibVrealpath_depth (vpwd ppath : Bytes) :
    (swlibVrealpath vpwd ppath).count =
      (names (components (vrealpathText vpwd ppath)) : Int) -
        dotDots (components (vrealpathText vpwd ppath)) := by
  simp only [swlibVrealpath, foldl_vrealpathStep_count, Int.zero_add]
  rcases components_swlibSlashclean (vrealpathText vpwd ppath) with h | h
  · rw [h]
  · rw [h, (counts_dot _).1, (counts_dot _).2]

/-- The path is resolved by its components exactly when it is absolute and a
`..` comes down to the root, or relative, and then only if a `..` that leaves
the directory where it starts is dropped. -/
theorem resolvesLexically_iff (drop : Bool) (vpwd ppath : Bytes) :
    ResolvesLexically drop vpwd ppath ↔
      if (vrealpathText vpwd ppath).head? = some slash then
        TouchesRoot (components (vrealpathText vpwd ppath))
      else drop = true ∨ StaysInRoot (vrealpathText vpwd ppath) := by
  obtain ⟨rooted, hrooted, hpath⟩ := (swlibVrealpath_resolving vpwd ppath).path
  have hdepth := swlibVrealpath_depth vpwd ppath
  rw [ResolvesLexically, and_iff_left hdepth, hpath, lexicalPath, StaysInRoot]
  generalize vrealpathText vpwd ppath = path at hrooted
  by_cases habs : path.head? = some slash
  · rw [if_pos habs, if_pos habs]
    have htouch : rooted = true ↔ TouchesRoot (components path) := by
      rw [hrooted, and_iff_right (beq_iff_eq.mpr habs)]
    rw [← htouch]
    cases rooted with
    | true => exact iff_of_true rfl rfl
    | false =>
        refine iff_of_false (fun heq => ?_) Bool.false_ne_true
        have hlen := congrArg List.length heq
        change (joined (lexicalStack true (components path))).length =
          (joined (lexicalStack true (components path))).length + 1 at hlen
        omega
  · rw [if_neg habs, if_neg habs]
    have hrel : rooted = false := by
      rw [← Bool.not_eq_true, hrooted]
      rintro ⟨h, -⟩
      exact habs (beq_iff_eq.mp h)
    subst hrel
    have hjoin : joined (lexicalStack true (components path)) =
        joined (lexicalStack false (components path)) ↔ (walk [] (components path)).isSome = true :=
      joined_keep_iff fun c hc => mem_components hc
    cases drop with
    | true => exact iff_of_true rfl (.inl rfl)
    | false =>
        rw [or_iff_right Bool.false_ne_true, ← hjoin]
        rfl

/-- `/a` is resolved to `a`. -/
theorem vrealpath_loses_root :
    ¬ ResolvesLexically true [] (chars ['/', 'a']) ∧
      ¬ ResolvesLexically false [] (chars ['/', 'a']) := by
  have hpath : (swlibVrealpath [] (chars ['/', 'a'])).resolvedPath = chars ['a'] := by decide
  constructor
  · intro h
    exact absurd (hpath.symm.trans h.1) (by decide)
  · intro h
    exact absurd (hpath.symm.trans h.1) (by decide)

end Swbis.Misc
