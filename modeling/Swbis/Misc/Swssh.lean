import Swbis.Lib.Shell
import Swbis.Lib.Strtok
import Swbis.Lib.Strtol
import Swbis.Lib.Outcome

/-!
# Commands over several hops of a remote shell

A target such as `user@host_22@@host2:/path` names the hosts that a command
goes through.  `swssh_parse_target` turns it into the words of a command; the
words from the target itself have to be free of the characters in
`SWBIS_TAINTED_CHARS`.  A command that several shells read one after the other
is given backslashes by `swssh_protect_shell_metacharacters`, one level for each
shell.
-/

namespace Swbis.Misc

open CLib

/-- `SWBIS_TAINTED_CHARS` -/
def swbisTaintedChars : Bytes :=
  chars ['\'', '"', '|', '*', '?', ';', '&', '<', '>', '`', '$', '[', ']']

/-- `swlib_is_sh_tainted_string` of one character. -/
def isTainted (c : UInt8) : Bool := swbisTaintedChars.contains c

/-! ## Backslashes for several hops -/

/-- `cat_escapes` -/
def catEscapes (command : Bytes) (nhops : Nat) : Option Bytes :=
  let nbackslashes := match nhops with
    | 0 => some 0
    | 1 => some 0
    | 2 => some 1
    | 3 => some 3
    | 4 => some 7
    | _ => none
  nbackslashes.map fun n => command ++ List.replicate n backslash

/-- `swssh_protect_shell_metacharacters`: the code, and the new command. -/
def swsshProtectShellMetacharacters (command : Bytes) (nhops : Nat) (taints : Bytes) :
    Int × Bytes :=
  -- The code of `cat_escapes` is not looked at.
  (0, command.foldl (fun out c =>
    (if taints.contains c then (catEscapes out nhops).getD out else out) ++ [c]) [])

/-- After `levels` shells the text is the command, and no shell before saw a tainted character
unquoted. -/
def Unwraps : Nat → Bytes → Bytes → Prop
  | 0, s, command => s = command
  | levels + 1, s, command =>
      (∀ c ∈ exposed s, isTainted c = false) ∧
        ∃ t, removeBackslashes s = some t ∧ Unwraps levels t command

/-- The command comes out of the last shell as it was, or an error is reported, as it has to be for
a number of hops that `cat_escapes` does not know. -/
def ProtectsHops (command : Bytes) (nhops : Nat) : Prop :=
  let r := swsshProtectShellMetacharacters command nhops swbisTaintedChars
  r.1 ≠ 0 ∨ ((catEscapes [] nhops).isSome = true ∧ Unwraps (nhops - 1) r.2 command)

/-- The number of backslashes for a tainted character. -/
def escapesFor (nhops : Nat) : Nat := if nhops ≤ 4 then 2 ^ (nhops - 1) - 1 else 0

theorem catEscapes_getD (command : Bytes) (nhops : Nat) :
    (catEscapes command nhops).getD command =
      command ++ List.replicate (escapesFor nhops) backslash := by
  match nhops with
  | 0 => rfl
  | 1 => rfl
  | 2 => rfl
  | 3 => rfl
  | 4 => rfl
  | n + 5 =>
      have hfive : ¬n + 5 ≤ 4 := by omega
      rw [escapesFor, if_neg hfive]
      simp [catEscapes]

theorem catEscapes_isSome (command : Bytes) (nhops : Nat) :
    (catEscapes command nhops).isSome = true ↔ nhops ≤ 4 := by
  match nhops with
  | 0 => simp [catEscapes]
  | 1 => simp [catEscapes]
  | 2 => simp [catEscapes]
  | 3 => simp [catEscapes]
  | 4 => simp [catEscapes]
  | n + 5 => simp [catEscapes]

theorem swsshProtect_eq (command : Bytes) (nhops : Nat) :
    swsshProtectShellMetacharacters command nhops swbisTaintedChars =
      (0, guarded isTainted (escapesFor nhops) command) := by
  have hfold : ∀ (s out : Bytes), s.foldl (fun out c =>
      (if swbisTaintedChars.contains c then (catEscapes out nhops).getD out else out) ++ [c]) out =
        out ++ guarded isTainted (escapesFor nhops) s := by
    intro s
    induction s with
    | nil => intro out; simp [guarded]
    | cons c s ih =>
        intro out
        rw [List.foldl_cons, ih, catEscapes_getD, guarded, guarded, List.flatMap_cons, ← isTainted]
        cases hc : isTainted c with
        | true => simp
        | false => simp
  rw [swsshProtectShellMetacharacters, hfold, List.nil_append]

theorem isTainted_backslash : isTainted backslash = false := by decide

theorem isTainted_newline : isTainted newline = false := by decide

/-- `2 ^ levels - 1` backslashes last for that many shells. -/
theorem unwraps_guarded {command : Bytes} (h : backslash ∉ command) (levels : Nat) :
    Unwraps levels (guarded isTainted (2 ^ levels - 1) command) command := by
  induction levels with
  | zero => exact guarded_zero command
  | succ levels ih =>
      have hpow : 2 ^ (levels + 1) - 1 = 2 * (2 ^ levels - 1) + 1 := by
        have hpos := Nat.two_pow_pos levels
        omega
      rw [hpow]
      obtain ⟨hread, hexposed⟩ := removeBackslashes_guarded isTainted_newline h (2 ^ levels - 1)
      exact ⟨hexposed, _, hread, ih⟩

/-- Each level takes half of the backslashes and tainted characters away. -/
theorem count_le_of_unwraps {levels : Nat} {s command : Bytes} (h : Unwraps levels s command) :
    2 ^ levels * (command.count backslash + command.countP isTainted) ≤
      s.count backslash + s.countP isTainted := by
  induction levels generalizing s with
  | zero =>
      rw [show s = command from h]
      omega
  | succ levels ih =>
      obtain ⟨hexposed, t, hread, ht⟩ := h
      have hstep := count_removeBackslashes_le isTainted_backslash hread hexposed
      have hrest := ih ht
      rw [Nat.pow_succ, Nat.mul_assoc, Nat.mul_comm 2, ← Nat.mul_assoc]
      omega

/-- A command is protected over at most four hops, if it has no backslash of its own or there is
one hop only. -/
theorem protectsHops_iff (command : Bytes) (nhops : Nat) (hpos : 1 ≤ nhops) :
    ProtectsHops command nhops ↔ nhops ≤ 4 ∧ (nhops = 1 ∨ backslash ∉ command) := by
  rw [ProtectsHops, swsshProtect_eq, catEscapes_isSome]
  simp only [ne_eq, not_true_eq_false, false_or]
  refine and_congr_right fun hfour => ?_
  rw [escapesFor, if_pos hfour]
  obtain ⟨levels, rfl⟩ : ∃ levels, nhops = levels + 1 := ⟨nhops - 1, by omega⟩
  rw [Nat.add_sub_cancel]
  constructor
  · intro h
    have hle := count_le_of_unwraps h
    obtain ⟨hcount, hspecial⟩ := count_guarded isTainted_backslash (2 ^ levels - 1) command
    rw [hcount, hspecial] at hle
    rcases Nat.eq_zero_or_pos levels with rfl | hlevels
    · exact .inl rfl
    · refine .inr (List.count_eq_zero.mp ?_)
      have hpow : 2 ^ levels - 1 + 1 = 2 ^ levels := Nat.sub_add_cancel (Nat.two_pow_pos levels)
      have htwo : 2 ≤ 2 ^ levels := Nat.pow_le_pow_right (Nat.zero_lt_two) hlevels
      have hsum : command.count backslash + (2 ^ levels - 1) * command.countP isTainted +
          command.countP isTainted =
            command.count backslash + 2 ^ levels * command.countP isTainted := by
        rw [Nat.add_assoc, ← Nat.succ_mul, Nat.succ_eq_add_one, hpow]
      rw [hsum, Nat.mul_add] at hle
      have htimes := Nat.mul_le_mul_right (command.count backslash) htwo
      omega
  · rintro (hone | hback)
    · obtain rfl : levels = 0 := by omega
      exact guarded_zero command
    · exact unwraps_guarded hback levels

/-- `echo;` over three hops. -/
theorem protectsHops_three : ProtectsHops (chars ['e', 'c', 'h', 'o', ';']) 3 :=
  (protectsHops_iff _ 3 (by decide)).mpr ⟨by decide, .inr (by decide)⟩

/-- `a;b` over five hops is given no backslash at all, and no error is reported. -/
theorem fiveHops_unprotected :
    swsshProtectShellMetacharacters (chars ['a', ';', 'b']) 5 swbisTaintedChars =
        (0, chars ['a', ';', 'b']) ∧
      ¬ProtectsHops (chars ['a', ';', 'b']) 5 := by
  refine ⟨by decide, ?_⟩
  rintro (herror | ⟨hsupported, -⟩)
  · exact herror (by decide)
  · exact absurd hsupported (by decide)

/-! ## The words of a target -/

/-- Where a word of a command comes from. -/
inductive Origin where
  /-- The caller's commands and options, and the texts of the program. -/
  | given
  /-- The target: a user, a host or a port. -/
  | target
  /-- A message or a kill command for a host of the target. -/
  | message (host : Bytes)
deriving DecidableEq

/-- A word of a command. -/
structure ShArg where
  origin : Origin
  word : Bytes
deriving DecidableEq

/-- The command and the kill command.  The callers open a command for each target; the kill command
may be null. -/
structure TargetArgs where
  cmd : List ShArg
  kmd : Option (List ShArg)
deriving DecidableEq

/-- `swlib_is_sh_tainted_string` -/
def swlibIsShTaintedString (s : Bytes) : Bool := s.any isTainted

/-- `is_posix_shell_command`: the comparison with the command itself is switched off. -/
def isPosixShellCommand (s : Bytes) : Bool :=
  (findSub (chars ['g', 'e', 't', 'c', 'o', 'n', 'f']) s).isSome &&
    (findSub (chars ['P', 'A', 'T', 'H']) s).isSome

/-- `safe_shcmd_add_arg` -/
def safeShcmdAddArg (cmd : List ShArg) (origin : Origin) (s : Bytes) : Outcome (List ShArg) :=
  if isPosixShellCommand s = false ∧ swlibIsShTaintedString s = true then .exited 2
  else .returned (cmd ++ [⟨origin, s⟩])

namespace TargetArgs

/-- `safe_shcmd_add_arg (cmd, s)` -/
def addCmd (args : TargetArgs) (origin : Origin) (s : Bytes) : Outcome TargetArgs := do
  let cmd ← safeShcmdAddArg args.cmd origin s
  .returned { args with cmd := cmd }

/-- `safe_shcmd_add_arg (kmd, s)` -/
def addKmd (args : TargetArgs) (origin : Origin) (s : Bytes) : Outcome TargetArgs :=
  match args.kmd with
  | none => .returned args
  | some kmd => do
      let kmd ← safeShcmdAddArg kmd origin s
      .returned { args with kmd := some kmd }

end TargetArgs

/-- The code of `swlib_atoi2`, with `errno` left at `ERANGE` by an earlier call or not. -/
def swlibAtoiStatus (erange : Bool) (s : Bytes) : Bool :=
  let (ret, endptr) := strtol s
  let exact : Int :=
    let (negative, t) := signOf (s.dropWhile isSpace)
    if negative then -(decimal.value (decimal.run t) : Int) else decimal.value (decimal.run t)
  (endptr == s && ret == 0) ||
    ((ret == -2 ^ 63 || ret == 2 ^ 63 - 1) && (erange || ret != exact))

/-- `parse_host_port` -/
def parseHostPort (erange : Bool) (host : Bytes) (args : TargetArgs) : Outcome TargetArgs :=
  match host.findIdx? (· == 95) with
  | none => do
      let args ← args.addKmd .target host
      args.addCmd .target host
  | some u =>
      let s := host.drop (u + 1)
      if swlibAtoiStatus erange s = false then do
        let args ← args.addKmd .given (chars ['-', 'p'])
        let args ← args.addCmd .given (chars ['-', 'p'])
        let args ← args.addKmd .target s
        let args ← args.addCmd .target s
        let args ← args.addKmd .target (host.take u)
        args.addCmd .target (host.take u)
      else do
        -- probably a illegal host name
        let args ← args.addKmd .target host
        args.addCmd .target host

/-- `form_intermediate_msg` -/
def formIntermediateMsg (host : Bytes) (nhops : Nat) : Bytes :=
  let command := chars ['e', 'c', 'h', 'o', ' ', '1', '0'] ++ decimal.render nhops ++
    chars [' ', 'I', 'n', 't', 'e', 'r', 'm', 'e', 'd', 'i', 'a', 't', 'e', ' ',
      'H', 'o', 's', 't', ':'] ++ host ++ chars [':', '$', 'P', 'P', 'I', 'D', ';']
  (swsshProtectShellMetacharacters command nhops swbisTaintedChars).2

/-- `add_host_message` -/
def addHostMessage (doimsg : Bool) (args : TargetArgs) (host : Bytes) (cmdcount : Nat) :
    TargetArgs :=
  if doimsg then
    { args with
      cmd := args.cmd ++ (strTokens (chars [' ']) (formIntermediateMsg host cmdcount)).map
        (ShArg.mk (.message host)) }
  else args

/-- `add_host_kill` -/
def addHostKill (doimsg : Bool) (args : TargetArgs) (host : Bytes) (cmdcount : Nat) :
    Outcome TargetArgs :=
  if doimsg then
    match args.kmd with
    | none => .fault
    | some kmd =>
        let command := chars ['k', 'i', 'l', 'l', ' ', '_', ' ', ';']
        let s := (swsshProtectShellMetacharacters command cmdcount swbisTaintedChars).2
        .returned { args with
          kmd := some (kmd ++ (strTokens (chars [' ']) s).map (ShArg.mk (.message host))) }
  else .returned args

/-- The arguments of `swssh_parse_target` besides the target, and `errno`. -/
structure TargetOptions where
  sshCommand : Option Bytes
  remoteSshCommand : Bytes
  ttyOption : Option Bytes
  doImsg : Bool
  sshoption : Option Bytes
  doForwardAuthAgent : Bool
  erange : Bool
deriving DecidableEq

/-- `ssh_command` -/
def TargetOptions.ssh (opts : TargetOptions) : Bytes := opts.sshCommand.getD (chars ['s', 's', 'h'])

/-- `swlib_basename` into a buffer. -/
def swlibBasename (source : Bytes) : Bytes :=
  match source.reverse.findIdx? (· == 47) with
  | none => source
  | some 0 => chars ['/']
  | some n => source.drop (source.length - n)

/-- The variables of the loop of `swssh_parse_target`. -/
structure TargetState where
  args : TargetArgs
  cmdcount : Nat
  icmdcount : Nat
  parentHost : Bytes
  terminalHost : Option Bytes
deriving DecidableEq

/-- The user and the host of a hop. -/
def hopParts (tok : Bytes) : Option Bytes × Bytes :=
  let (user, host) := match tok.findIdx? (· == 64) with
    | some i => (some (tok.take i), tok.drop (i + 1))
    | none => (none, tok)
  (user, host.takeWhile (· != 58))

/-- The option for a tty, twice. -/
def addTty (ttyOption : Option Bytes) (args : TargetArgs) : Outcome TargetArgs :=
  match ttyOption with
  | none => .returned args
  | some tty => do
      let args ← args.addCmd .given tty
      let args ← args.addCmd .given tty
      let args ← args.addKmd .given tty
      args.addKmd .given tty

/-- The option that forwards the agent: not for the last host. -/
def addForward (opts : TargetOptions) (nhops cmdcount : Nat) (args : TargetArgs) :
    Outcome TargetArgs :=
  if 1 < nhops ∧ opts.doForwardAuthAgent = true ∧ cmdcount + 1 < nhops then do
    let args ← args.addCmd .given (chars ['-', 'A'])
    args.addKmd .given (chars ['-', 'A'])
  else .returned args

/-- The options of the caller. -/
def addSshoption (sshoption : Option Bytes) (args : TargetArgs) : Outcome TargetArgs :=
  match sshoption with
  | none => .returned args
  | some sshoption =>
      if sshoption = [] then .returned args
      else do
        let args ← args.addKmd .given (chars ['-'] ++ sshoption)
        args.addCmd .given (chars ['-'] ++ sshoption)

/-- The options of one ssh command. -/
def addSshOptions (opts : TargetOptions) (nhops cmdcount : Nat) (args : TargetArgs) :
    Outcome TargetArgs := do
  let args ← addTty opts.ttyOption args
  let args ← addForward opts nhops cmdcount args
  addSshoption opts.sshoption args

/-- The name of the ssh command for a host, behind the messages of the host before. -/
def addSshCommand (opts : TargetOptions) (st : TargetState) : Outcome TargetArgs :=
  if st.cmdcount = 0 then do
    let args ← st.args.addKmd .given opts.ssh
    args.addCmd .given opts.ssh
  else do
    let args := addHostMessage opts.doImsg st.args st.parentHost st.cmdcount
    let args ← addHostKill opts.doImsg args st.parentHost st.cmdcount
    let args ← args.addKmd .given (swlibBasename opts.remoteSshCommand)
    args.addCmd .given (swlibBasename opts.remoteSshCommand)

/-- The ssh command for a host. -/
def addSsh (opts : TargetOptions) (nhops : Nat) (st : TargetState) : Outcome TargetArgs := do
  let args ← addSshCommand opts st
  if (findSub (chars ['s', 's', 'h']) opts.ssh).isSome then
    addSshOptions opts nhops st.cmdcount args
  else .returned args

/-- The user of a hop. -/
def addUser (user : Option Bytes) (args : TargetArgs) : Outcome TargetArgs :=
  match user with
  | none => .returned args
  | some user => do
      let args ← args.addCmd .given (chars ['-', 'l'])
      let args ← args.addCmd .target user
      let args ← args.addKmd .given (chars ['-', 'l'])
      args.addKmd .target user

/-- One hop, with a host or as the first one. -/
def parseHop (opts : TargetOptions) (nhops : Nat) (user : Option Bytes) (host : Bytes)
    (st : TargetState) : Outcome TargetState :=
  if host ≠ [] then do
    let args ← addSsh opts nhops st
    let args ← addUser user args
    let args ← parseHostPort opts.erange host args
    .returned {
      args := args, cmdcount := st.cmdcount + 1, icmdcount := st.icmdcount + 1, parentHost := host,
      terminalHost := some host }
  else do
    -- localhost, empty host, user specified.
    let args ← st.args.addCmd .given (chars ['/', 'b', 'i', 'n', '/', 's', 'h'])
    let args ← addUser user args
    let args ← args.addCmd .given (chars ['-', 'c'])
    .returned { st with args := args, icmdcount := st.icmdcount + 1, terminalHost := none }

/-- The loop over the hops, and what follows it: the code, and the variables. -/
def parseHops (opts : TargetOptions) (nhops : Nat) :
    List Bytes → TargetState → Outcome (Int × TargetState)
  | [], st =>
      if st.icmdcount = 0 then do
        let args ← st.args.addCmd .given (chars ['/', 'b', 'i', 'n', '/', 's', 'h'])
        let args ← args.addCmd .given (chars ['-', 'c'])
        .returned (st.cmdcount, { st with args := args })
      else .returned (st.cmdcount, st)
  | tok :: toks, st =>
      let (user, host) := hopParts tok
      if host = [] ∧ st.icmdcount ≠ 0 then .returned (-1, { st with terminalHost := none })
      else do
        let st ← parseHop opts nhops user host st
        parseHops opts nhops toks st

/-- `clean_leading_comm_at_sign` -/
def cleanLeadingCommAtSign (target : Bytes) : Bytes :=
  (if target.head? = some 64 then target.drop 1 else target).dropWhile (· == 32)

/-- The path of a target, and the target that is left to parse. -/
def targetPath (target : Bytes) : Option Bytes × Bytes :=
  if target.head?.any (fun c => c == 58 || c == 47 || c == 46 || c == 45) then (some target, [])
  else
    match target.reverse.findIdx? (· == 58) with
    | some n => (some (target.drop (target.length - n)), target)
    | none => (none, target)

/-- `TARGET_DELIM` -/
def targetDelim : Bytes := chars ['@', '@']

/-- What `swssh_parse_target` leaves behind. -/
structure TargetResult where
  args : TargetArgs
  path : Option Bytes
  terminalHost : Option Bytes
deriving DecidableEq

/-- `swssh_parse_target`: the code, and what is left behind. -/
def swsshParseTarget (opts : TargetOptions) (args : TargetArgs) (fpTarget : Bytes) :
    Outcome (Int × TargetResult) :=
  let (path, target) := targetPath (cleanLeadingCommAtSign fpTarget)
  -- The path behind the last colon must not hold another host.
  if target ≠ [] ∧ (path.any fun p => (findSub targetDelim p).isSome) = true then
    .returned (-1, { args := args, path := path, terminalHost := none })
  else do
    let toks := strTokens targetDelim target
    let (ret, st) ← parseHops opts toks.length toks {
      args := args, cmdcount := 0, icmdcount := 0, parentHost := [], terminalHost := none }
    .returned (ret, { args := st.args, path := path, terminalHost := st.terminalHost })

/-! ## What a target puts into the commands -/

/-- The words that `parse_host_port` makes of a host. -/
def hostWords (erange : Bool) (host : Bytes) : List Bytes :=
  match host.findIdx? (· == 95) with
  | none => [host]
  | some u =>
      if swlibAtoiStatus erange (host.drop (u + 1)) = false then [host.drop (u + 1), host.take u]
      else [host]

/-- The user, the host and the port of a hop. -/
def hopWords (erange : Bool) (tok : Bytes) : List Bytes :=
  (hopParts tok).1.toList ++
    (if (hopParts tok).2 ≠ [] then hostWords erange (hopParts tok).2 else [])

/-- The users, hosts and ports of a target. -/
def targetWords (erange : Bool) (fpTarget : Bytes) : List Bytes :=
  (strTokens targetDelim (targetPath (cleanLeadingCommAtSign fpTarget)).2).flatMap
    (hopWords erange)

/-- A word from the target is free of tainted characters, and so is the host in a message. -/
def ShArg.Safe (x : ShArg) : Prop :=
  match x.origin with
  | .given => True
  | .target => swlibIsShTaintedString x.word = false
  | .message host => swlibIsShTaintedString host = false

/-- No word from the target has a tainted character. -/
def TargetArgs.Clean (args : TargetArgs) : Prop :=
  ∀ x ∈ args.cmd ++ args.kmd.getD [], x.Safe

section

variable {ws : List Bytes} {args args' : TargetArgs}

/-- A host that is tainted has a tainted word. -/
def HostIn (ws : List Bytes) (host : Bytes) : Prop :=
  swlibIsShTaintedString host = true → ∃ w ∈ ws, swlibIsShTaintedString w = true

/-- A word that is in the commands for one of the words `ws`. -/
def ShArg.From (ws : List Bytes) (x : ShArg) : Prop :=
  match x.origin with
  | .given => True
  | .target => x.word ∈ ws
  | .message host => HostIn ws host

theorem from_given (ws : List Bytes) (s : Bytes) : ShArg.From ws ⟨.given, s⟩ := trivial

theorem from_target {w : Bytes} (hw : w ∈ ws) : ShArg.From ws ⟨.target, w⟩ := hw

/-- All words from the target are among `ws`. -/
def TargetArgs.WordsIn (ws : List Bytes) (args : TargetArgs) : Prop :=
  ∀ x ∈ args.cmd ++ args.kmd.getD [], x.From ws

/-- More words for `ws`. -/
structure Extends (ws : List Bytes) (args args' : TargetArgs) : Prop where
  wordsIn : args.WordsIn ws → args'.WordsIn ws
  has : ∀ x ∈ args.cmd, x ∈ args'.cmd

theorem Extends.refl (ws : List Bytes) (args : TargetArgs) : Extends ws args args := ⟨id, fun _ => id⟩

theorem Extends.trans {args'' : TargetArgs} (h : Extends ws args args') (h' : Extends ws args' args'') :
    Extends ws args args'' :=
  ⟨fun hw => h'.wordsIn (h.wordsIn hw), fun x hx => h'.has x (h.has x hx)⟩

/-- A word that `safe_shcmd_add_arg` lets through. -/
def Passes (w : Bytes) : Prop := isPosixShellCommand w = true ∨ swlibIsShTaintedString w = false

theorem safeShcmdAddArg_returned {cmd cmd' : List ShArg} {origin : Origin} {s : Bytes}
    (h : safeShcmdAddArg cmd origin s = .returned cmd') : cmd' = cmd ++ [⟨origin, s⟩] ∧ Passes s := by
  rw [safeShcmdAddArg] at h
  split at h
  next => cases h
  next hs =>
    cases h
    refine ⟨rfl, ?_⟩
    rw [Passes]
    cases hp : isPosixShellCommand s with
    | true => exact .inl rfl
    | false => exact .inr (by simpa [hp] using hs)

theorem wordsIn_append_cmd {l : List ShArg} (h : args.WordsIn ws) (hl : ∀ x ∈ l, x.From ws) :
    TargetArgs.WordsIn ws { args with cmd := args.cmd ++ l } := by
  intro x hx
  rcases List.mem_append.mp hx with hx | hx
  · rcases List.mem_append.mp hx with hx | hx
    · exact h x (List.mem_append_left _ hx)
    · exact hl x hx
  · exact h x (List.mem_append_right _ hx)

theorem wordsIn_append_kmd {kmd l : List ShArg} (hk : args.kmd = some kmd) (h : args.WordsIn ws)
    (hl : ∀ x ∈ l, x.From ws) : TargetArgs.WordsIn ws { args with kmd := some (kmd ++ l) } := by
  intro x hx
  rcases List.mem_append.mp hx with hx | hx
  · exact h x (List.mem_append_left _ hx)
  · rw [Option.getD_some] at hx
    rcases List.mem_append.mp hx with hx | hx
    · exact h x (List.mem_append_right _ (by rwa [hk]))
    · exact hl x hx

theorem addCmd_extends {origin : Origin} {s : Bytes} (hs : ShArg.From ws ⟨origin, s⟩)
    (h : args.addCmd origin s = .returned args') :
    Extends ws args args' ∧ ⟨origin, s⟩ ∈ args'.cmd ∧ Passes s := by
  obtain ⟨cmd, hcmd, hret⟩ := Outcome.bind_eq_returned.mp h
  obtain ⟨rfl, hpass⟩ := safeShcmdAddArg_returned hcmd
  cases hret
  refine ⟨⟨fun hw => wordsIn_append_cmd hw fun x hx => ?_, fun x hx => List.mem_append_left _ hx⟩,
    List.mem_append_right _ (List.mem_singleton_self _), hpass⟩
  rw [List.mem_singleton.mp hx]
  exact hs

theorem addKmd_extends {origin : Origin} {s : Bytes} (hs : ShArg.From ws ⟨origin, s⟩)
    (h : args.addKmd origin s = .returned args') : Extends ws args args' := by
  rw [TargetArgs.addKmd] at h
  split at h
  next =>
    cases h
    exact .refl ws args
  next kmd hkmd =>
    obtain ⟨kmd', hcall, hret⟩ := Outcome.bind_eq_returned.mp h
    obtain ⟨rfl, -⟩ := safeShcmdAddArg_returned hcall
    cases hret
    refine ⟨fun hw => wordsIn_append_kmd hkmd hw fun x hx => ?_, fun _ hx => hx⟩
    rw [List.mem_singleton.mp hx]
    exact hs

/-- A word from the target in both commands, the kill command first. -/
theorem addBoth_extends {w : Bytes} (hw : w ∈ ws)
    (h : (do
      let args ← args.addKmd .target w
      args.addCmd .target w) = .returned args') :
    Extends ws args args' ∧ ⟨.target, w⟩ ∈ args'.cmd ∧ Passes w := by
  obtain ⟨a, ha, hrest⟩ := Outcome.bind_eq_returned.mp h
  obtain ⟨hext, hmem, hpass⟩ := addCmd_extends (from_target hw) hrest
  exact ⟨(addKmd_extends (from_target hw) ha).trans hext, hmem, hpass⟩

theorem parseHostPort_extends {erange : Bool} {host : Bytes}
    (hws : ∀ w ∈ hostWords erange host, w ∈ ws)
    (h : parseHostPort erange host args = .returned args') :
    Extends ws args args' ∧ ∀ w ∈ hostWords erange host, ⟨.target, w⟩ ∈ args'.cmd ∧ Passes w := by
  rw [hostWords] at hws ⊢
  rw [parseHostPort] at h
  split at h
  next hfind =>
    rw [hfind] at hws
    dsimp only at hws ⊢
    obtain ⟨hext, hmem⟩ := addBoth_extends (hws host (List.mem_singleton_self _)) h
    exact ⟨hext, by simpa using hmem⟩
  next u hfind =>
    rw [hfind] at hws
    dsimp only at hws h ⊢
    split at h
    next hstatus =>
      rw [if_pos hstatus] at hws ⊢
      obtain ⟨a₁, h₁, h⟩ := Outcome.bind_eq_returned.mp h
      obtain ⟨a₂, h₂, h⟩ := Outcome.bind_eq_returned.mp h
      obtain ⟨a₃, h₃, h⟩ := Outcome.bind_eq_returned.mp h
      obtain ⟨a₄, h₄, h⟩ := Outcome.bind_eq_returned.mp h
      have e₁ := addKmd_extends (from_given ws _) h₁
      obtain ⟨e₂, -⟩ := addCmd_extends (from_given ws _) h₂
      have e₃ := addKmd_extends (from_target (hws _ List.mem_cons_self)) h₃
      obtain ⟨e₄, hport, hportPass⟩ := addCmd_extends (from_target (hws _ List.mem_cons_self)) h₄
      obtain ⟨e₅, hhost⟩ := addBoth_extends (hws _ (List.mem_cons_of_mem _ (List.mem_singleton_self _))) h
      refine ⟨e₁.trans (e₂.trans (e₃.trans (e₄.trans e₅))), ?_⟩
      intro w hw
      rcases List.mem_cons.mp hw with rfl | hw
      · exact ⟨e₅.has _ hport, hportPass⟩
      · rw [List.mem_singleton.mp hw]
        exact hhost
    next hstatus =>
      rw [if_neg hstatus] at hws ⊢
      obtain ⟨hext, hmem⟩ := addBoth_extends (hws host (List.mem_singleton_self _)) h
      exact ⟨hext, by simpa using hmem⟩

theorem addUser_extends {user : Option Bytes} (hws : ∀ w ∈ user.toList, w ∈ ws)
    (h : addUser user args = .returned args') :
    Extends ws args args' ∧ ∀ w ∈ user.toList, ⟨.target, w⟩ ∈ args'.cmd ∧ Passes w := by
  rw [addUser.eq_def] at h
  split at h
  next =>
    cases h
    exact ⟨.refl ws args, by simp⟩
  next user =>
    have hw : user ∈ ws := hws user (by simp)
    obtain ⟨a₁, h₁, h⟩ := Outcome.bind_eq_returned.mp h
    obtain ⟨a₂, h₂, h⟩ := Outcome.bind_eq_returned.mp h
    obtain ⟨a₃, h₃, h⟩ := Outcome.bind_eq_returned.mp h
    obtain ⟨e₁, -⟩ := addCmd_extends (from_given ws _) h₁
    obtain ⟨e₂, hmem, hpass⟩ := addCmd_extends (from_target hw) h₂
    have e₃ := addKmd_extends (from_given ws _) h₃
    have e₄ := addKmd_extends (from_target hw) h
    refine ⟨e₁.trans (e₂.trans (e₃.trans e₄)), fun w hmem' => ?_⟩
    rw [show w = user by simpa using hmem']
    exact ⟨e₄.has _ (e₃.has _ hmem), hpass⟩

theorem addTty_extends {ttyOption : Option Bytes} (h : addTty ttyOption args = .returned args') :
    Extends ws args args' := by
  rw [addTty.eq_def] at h
  split at h
  next =>
    cases h
    exact .refl ws args
  next tty =>
    obtain ⟨a₁, h₁, h⟩ := Outcome.bind_eq_returned.mp h
    obtain ⟨a₂, h₂, h⟩ := Outcome.bind_eq_returned.mp h
    obtain ⟨a₃, h₃, h⟩ := Outcome.bind_eq_returned.mp h
    exact (addCmd_extends (from_given ws _) h₁).1.trans ((addCmd_extends (from_given ws _) h₂).1.trans
      ((addKmd_extends (from_given ws _) h₃).trans (addKmd_extends (from_given ws _) h)))

theorem addForward_extends {opts : TargetOptions} {nhops cmdcount : Nat}
    (h : addForward opts nhops cmdcount args = .returned args') : Extends ws args args' := by
  rw [addForward] at h
  split at h
  next =>
    obtain ⟨a₁, h₁, h⟩ := Outcome.bind_eq_returned.mp h
    exact (addCmd_extends (from_given ws _) h₁).1.trans (addKmd_extends (from_given ws _) h)
  next =>
    cases h
    exact .refl ws args

theorem addSshoption_extends {sshoption : Option Bytes}
    (h : addSshoption sshoption args = .returned args') : Extends ws args args' := by
  rw [addSshoption.eq_def] at h
  split at h
  next =>
    cases h
    exact .refl ws args
  next =>
    split at h
    next =>
      cases h
      exact .refl ws args
    next =>
      obtain ⟨a₁, h₁, h⟩ := Outcome.bind_eq_returned.mp h
      exact (addKmd_extends (from_given ws _) h₁).trans (addCmd_extends (from_given ws _) h).1

theorem addSshOptions_extends {opts : TargetOptions} {nhops cmdcount : Nat}
    (h : addSshOptions opts nhops cmdcount args = .returned args') : Extends ws args args' := by
  obtain ⟨a₁, h₁, h⟩ := Outcome.bind_eq_returned.mp h
  obtain ⟨a₂, h₂, h⟩ := Outcome.bind_eq_returned.mp h
  exact (addTty_extends h₁).trans ((addForward_extends h₂).trans (addSshoption_extends h))

theorem addHostMessage_extends {host : Bytes} (hhost : HostIn ws host) (doimsg : Bool)
    (args : TargetArgs) (cmdcount : Nat) : Extends ws args (addHostMessage doimsg args host cmdcount) := by
  rw [addHostMessage]
  split
  next =>
    refine ⟨fun hw => wordsIn_append_cmd hw fun x hx => ?_, fun x hx => List.mem_append_left _ hx⟩
    obtain ⟨w, -, rfl⟩ := List.mem_map.mp hx
    exact hhost
  next => exact .refl ws args

theorem addHostKill_extends {host : Bytes} (hhost : HostIn ws host) {doimsg : Bool} {cmdcount : Nat}
    (h : addHostKill doimsg args host cmdcount = .returned args') : Extends ws args args' := by
  rw [addHostKill] at h
  split at h
  next =>
    split at h
    next => cases h
    next kmd hkmd =>
      cases h
      refine ⟨fun hw => wordsIn_append_kmd hkmd hw fun x hx => ?_, fun _ hx => hx⟩
      obtain ⟨w, -, rfl⟩ := List.mem_map.mp hx
      exact hhost
  next =>
    cases h
    exact .refl ws args

theorem addSshCommand_extends {opts : TargetOptions} {st : TargetState}
    (hhost : HostIn ws st.parentHost) (h : addSshCommand opts st = .returned args') :
    Extends ws st.args args' := by
  rw [addSshCommand] at h
  split at h
  next =>
    obtain ⟨a₁, h₁, h⟩ := Outcome.bind_eq_returned.mp h
    exact (addKmd_extends (from_given ws _) h₁).trans (addCmd_extends (from_given ws _) h).1
  next =>
    obtain ⟨a₁, h₁, h⟩ := Outcome.bind_eq_returned.mp h
    obtain ⟨a₂, h₂, h⟩ := Outcome.bind_eq_returned.mp h
    exact (addHostMessage_extends hhost _ _ _).trans ((addHostKill_extends hhost h₁).trans
      ((addKmd_extends (from_given ws _) h₂).trans (addCmd_extends (from_given ws _) h).1))

theorem addSsh_extends {opts : TargetOptions} {nhops : Nat} {st : TargetState}
    (hhost : HostIn ws st.parentHost) (h : addSsh opts nhops st = .returned args') :
    Extends ws st.args args' := by
  obtain ⟨a, ha, h⟩ := Outcome.bind_eq_returned.mp h
  split at h
  next => exact (addSshCommand_extends hhost ha).trans (addSshOptions_extends h)
  next =>
    cases h
    exact addSshCommand_extends hhost ha

/-- A tainted host has a tainted word: `_` is not tainted. -/
theorem hostIn_of_hostWords {erange : Bool} {host : Bytes} (hws : ∀ w ∈ hostWords erange host, w ∈ ws) :
    HostIn ws host := by
  intro htaint
  obtain ⟨c, hc, hct⟩ := List.any_eq_true.mp htaint
  rw [hostWords] at hws
  split at hws
  next => exact ⟨host, hws host (List.mem_singleton_self _), htaint⟩
  next u hfind =>
    split at hws
    next =>
      obtain ⟨hlt, hget, -⟩ := List.findIdx?_eq_some_iff_getElem.mp hfind
      have hsplit : host = host.take u ++ 95 :: host.drop (u + 1) := by
        rw [← beq_iff_eq.mp hget, ← List.drop_eq_getElem_cons hlt, List.take_append_drop]
      rw [hsplit] at hc
      rcases List.mem_append.mp hc with hc | hc
      · exact ⟨host.take u, hws _ (List.mem_cons_of_mem _ (List.mem_singleton_self _)),
          List.any_eq_true.mpr ⟨c, hc, hct⟩⟩
      · rcases List.mem_cons.mp hc with rfl | hc
        · exact absurd hct (by decide)
        · exact ⟨host.drop (u + 1), hws _ List.mem_cons_self, List.any_eq_true.mpr ⟨c, hc, hct⟩⟩
    next => exact ⟨host, hws host (List.mem_singleton_self _), htaint⟩

theorem parseHop_extends {opts : TargetOptions} {nhops : Nat} {user : Option Bytes} {host : Bytes}
    {st st' : TargetState} (huser : ∀ w ∈ user.toList, w ∈ ws)
    (hwords : host ≠ [] → ∀ w ∈ hostWords opts.erange host, w ∈ ws) (hparent : HostIn ws st.parentHost)
    (h : parseHop opts nhops user host st = .returned st') :
    Extends ws st.args st'.args ∧ HostIn ws st'.parentHost ∧
      ∀ w ∈ user.toList ++ (if host ≠ [] then hostWords opts.erange host else []),
        ⟨.target, w⟩ ∈ st'.args.cmd ∧ Passes w := by
  rw [parseHop] at h
  split at h
  next hne =>
    obtain ⟨a₁, h₁, h⟩ := Outcome.bind_eq_returned.mp h
    obtain ⟨a₂, h₂, h⟩ := Outcome.bind_eq_returned.mp h
    obtain ⟨a₃, h₃, h⟩ := Outcome.bind_eq_returned.mp h
    cases h
    have e₁ := addSsh_extends hparent h₁
    obtain ⟨e₂, hu⟩ := addUser_extends huser h₂
    obtain ⟨e₃, hh⟩ := parseHostPort_extends (hwords hne) h₃
    refine ⟨e₁.trans (e₂.trans e₃), hostIn_of_hostWords (hwords hne), fun w hw => ?_⟩
    rw [if_pos hne] at hw
    rcases List.mem_append.mp hw with hw | hw
    · exact ⟨e₃.has _ (hu w hw).1, (hu w hw).2⟩
    · exact hh w hw
  next hne =>
    obtain ⟨a₁, h₁, h⟩ := Outcome.bind_eq_returned.mp h
    obtain ⟨a₂, h₂, h⟩ := Outcome.bind_eq_returned.mp h
    obtain ⟨a₃, h₃, h⟩ := Outcome.bind_eq_returned.mp h
    cases h
    obtain ⟨e₁, -⟩ := addCmd_extends (from_given ws _) h₁
    obtain ⟨e₂, hu⟩ := addUser_extends huser h₂
    obtain ⟨e₃, -⟩ := addCmd_extends (from_given ws _) h₃
    refine ⟨e₁.trans (e₂.trans e₃), hparent, fun w hw => ?_⟩
    rw [if_neg hne, List.append_nil] at hw
    exact ⟨e₃.has _ (hu w hw).1, (hu w hw).2⟩

/-- The loop over the hops. -/
theorem parseHops_extends {opts : TargetOptions} {nhops : Nat} {toks : List Bytes} {ret : Int}
    {st st' : TargetState} (hws : ∀ w ∈ toks.flatMap (hopWords opts.erange), w ∈ ws)
    (hparent : HostIn ws st.parentHost) (h : parseHops opts nhops toks st = .returned (ret, st'))
    (hret : 0 ≤ ret) :
    Extends ws st.args st'.args ∧ ∀ w ∈ toks.flatMap (hopWords opts.erange),
      ⟨.target, w⟩ ∈ st'.args.cmd ∧ Passes w := by
  induction toks generalizing st with
  | nil =>
      refine ⟨?_, by simp⟩
      rw [parseHops] at h
      split at h
      next =>
        obtain ⟨a₁, h₁, h⟩ := Outcome.bind_eq_returned.mp h
        obtain ⟨a₂, h₂, h⟩ := Outcome.bind_eq_returned.mp h
        cases h
        exact (addCmd_extends (from_given ws _) h₁).1.trans (addCmd_extends (from_given ws _) h₂).1
      next =>
        cases h
        exact .refl ws _
  | cons tok toks ih =>
      rw [List.flatMap_cons] at hws ⊢
      rw [parseHops] at h
      dsimp only at h
      split at h
      next =>
        cases h
        exact absurd hret (by decide)
      next =>
        obtain ⟨st₁, h₁, h⟩ := Outcome.bind_eq_returned.mp h
        have hown : ∀ w ∈ hopWords opts.erange tok, w ∈ ws :=
          fun w hw => hws w (List.mem_append_left _ hw)
        have huser : ∀ w ∈ (hopParts tok).1.toList, w ∈ ws :=
          fun w hw => hown w (List.mem_append_left _ hw)
        have hhost : (hopParts tok).2 ≠ [] → ∀ w ∈ hostWords opts.erange (hopParts tok).2, w ∈ ws := by
          intro hne w hw
          refine hown w (List.mem_append_right _ ?_)
          rwa [if_pos hne]
        obtain ⟨e₁, hparent₁, hmem₁⟩ := parseHop_extends huser hhost hparent h₁
        obtain ⟨e₂, hmem₂⟩ := ih (fun w hw => hws w (List.mem_append_right _ hw)) hparent₁ h
        refine ⟨e₁.trans e₂, fun w hw => ?_⟩
        rcases List.mem_append.mp hw with hw | hw
        · exact ⟨e₂.has _ (hmem₁ w hw).1, (hmem₁ w hw).2⟩
        · exact hmem₂ w hw

end

end Swbis.Misc
