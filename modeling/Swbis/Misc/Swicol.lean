import Swbis.Lib.Outcome
import Swbis.Lib.Search
import Swbis.Lib.Strtol

/-!
# Waiting for the end of a remote task

A task on a remote host reports its progress in lines of the form
`<code>:<text>`, and its exit status in the line with the code 305.
`task_wait_for` polls the descriptor of the events: when there is something to
read it reads a whole line, byte by byte, and waits for the bytes that are
missing; then it looks for `305:` anywhere in the line that was read last.
`swicol_rpsh_task_expect` looks for `305:` once more, in everything that was
read, and takes the number behind it for the status.
-/

namespace Swbis.Misc

open CLib

/-! ## Reading a line -/

/-- `swgp_read_line`, for what is to be read in chunks: a read blocks until the next chunk is there,
and a NUL is lost in `strob_strcat`. -/
def swgpReadFdLine : List Bytes → Bytes × List Bytes
  | [] => ([], [])
  | [] :: chunks => swgpReadFdLine chunks
  | (b :: chunk) :: chunks =>
      if b = 10 then ([10], chunk :: chunks)
      else
        let more := swgpReadFdLine (chunk :: chunks)
        (if b = 0 then more.1 else b :: more.1, more.2)
termination_by chunks => (chunks.map fun chunk => chunk.length + 1).sum

/-- What `select` says: there is nothing yet, or it was interrupted; it failed, or there is an
exception; there is something to read, or the end of the file. -/
inductive Poll where
  | idle
  | failed
  | ready
deriving DecidableEq

/-- `swgpReadLine`: the return code, the buffer, which is left alone if there is nothing to read, and
what is still to be read. -/
def swgpReadLine (poll : Poll) (buf : Bytes) (unread : List Bytes) : Int × Bytes × List Bytes :=
  match poll with
  | .idle => (0, buf, unread)
  | .failed => (-1, buf, unread)
  | .ready => (1, swgpReadFdLine unread)

/-! ## The wait -/

/-- `SWICOL_STOP_STRING` -/
def swicolStopString : Bytes := chars ['3', '0', '5', ':']

/-- `SWICOL_START_STRING` -/
def swicolStartString : Bytes := chars ['3', '0', '4', ':']

/-- What the line read last means for the wait: nothing, or that it ends with a return code. -/
def lineVerdict (stopString buf : Bytes) : Option Int :=
  match findSub stopString buf with
  | none => none
  | some i =>
      let s := buf.drop i
      if s.length = 6 ∧ s.getD 5 0 = 10 then some 0
      else if (findSub swicolStartString s).isSome ∧ s.getLast? = some 10 then some 0
      else if 8 < s.length ∧ (findSub swicolStopString s).isSome then some 1
      else none -- a partial read on the stop event

/-- What is seen in one cycle of the wait: the time, `master_alarmM`, the time that is taken for the
start of an alarm, and `select`. -/
structure Tick where
  now : Int
  alarm : Bool
  alarmTime : Int
  poll : Poll
deriving DecidableEq

/-- The variables of `task_wait_for`. -/
structure Wait where
  unread : List Bytes
  buf : Bytes
  retbuf : Bytes
  cret : Int
  doStop : Bool
  retval : Int
  now : Int
  alarmStart : Int
  alarmMonitor : Bool
  masterAlarm : Bool

namespace Wait

/-- At the start. -/
def start (time : Int) (unread : List Bytes) : Wait where
  unread := unread
  buf := []
  retbuf := []
  cret := 0
  doStop := false
  retval := -1
  now := time
  alarmStart := 0
  alarmMonitor := false
  masterAlarm := false

/-- The condition of the loop: the time limit matters only once something has been read. -/
def goesOn (time timelimit : Int) (v : Wait) : Bool :=
  !v.alarmMonitor && (v.cret == 0 || (!v.doStop && decide (toCInt (v.now - time) < timelimit)))

/-- The body of the loop. -/
def cycle (stopString : Bytes) (t : Tick) (v : Wait) : Wait :=
  let alarmStart := if t.alarm && v.alarmStart == 0 then t.alarmTime else v.alarmStart
  let (ret, buf, unread) := swgpReadLine t.poll v.buf v.unread
  let verdict := lineVerdict stopString buf
  { unread := unread
    buf := buf
    retbuf := if ret = 0 then v.retbuf else v.retbuf ++ buf
    cret := if v.cret = 0 then ret else v.cret
    doStop := v.doStop || verdict.isSome
    retval := verdict.getD v.retval
    now := t.now
    alarmStart := alarmStart
    alarmMonitor := v.alarmMonitor || (t.alarm && decide (1 < t.now - alarmStart))
    masterAlarm := t.alarm }

end Wait

/-- The loop of `task_wait_for`. -/
def taskWaitLoop (time timelimit : Int) (stopString : Bytes) : List Tick → Wait → Outcome Wait
  | [], v => if v.goesOn time timelimit then .outOfFuel else .returned v
  | t :: ticks, v =>
      if v.goesOn time timelimit then taskWaitLoop time timelimit stopString ticks (v.cycle stopString t)
      else .returned v

/-- What `task_wait_for` returns and leaves behind. -/
structure Waited where
  ret : Int
  retbuf : Bytes
  unread : List Bytes
deriving DecidableEq

/-- `task_wait_for`, with the time at its start. -/
def taskWaitFor (time timelimit : Int) (stopString : Bytes) (ticks : List Tick) (unread : List Bytes) :
    Outcome Waited := do
  let v ← taskWaitLoop time timelimit stopString ticks (.start time unread)
  .returned {
    ret :=
      if !v.doStop && !v.masterAlarm then 2
      else if v.alarmMonitor || v.masterAlarm then 2
      else v.retval
    retbuf := v.retbuf
    unread := v.unread }

/-- `swicol_rpsh_task_wait` -/
def swicolRpshTaskWait (time timelimit : Int) (ticks : List Tick) (unread : List Bytes) : Outcome Waited :=
  taskWaitFor time timelimit swicolStopString ticks unread

/-- The status that `swicol_rpsh_task_expect` finds in what was read. -/
def endStatus (ret : Int) (buf : Bytes) : Int :=
  let retval := if ret = 0 then 0 else -4
  match findSub swicolStopString buf with
  | none => if retval = 0 then -1 else retval
  | some i =>
      let ev := buf.drop (i + 4)
      if decimal.isDigit (ev.getD 0 0) then toCInt (strtol ev).1 else -2

/-- The lines of a string, each without its newline; what is behind the last newline is dropped. -/
def eventLines (current : Bytes) : Bytes → List Bytes
  | [] => []
  | b :: s => if b = 10 then current :: eventLines [] s else eventLines (current ++ [b]) s

/-- `convert_result_to_event_list`: the list, with a newline for a separator, and where the new events
start in it. -/
def convertResultToEventList (eventString : Bytes) (eventList : List Bytes) : List Bytes × Nat :=
  (eventList ++ eventLines [] eventString ++ [[10]], eventList.length)

/-- What `swicol_rpsh_task_expect` returns and leaves behind. -/
structure Expected where
  retval : Int
  eventList : List Bytes
  eventIndex : Nat
deriving DecidableEq

/-- `swicol_rpsh_task_expect` -/
def swicolRpshTaskExpect (time timelimit : Int) (ticks : List Tick) (unread : List Bytes)
    (eventList : List Bytes) : Outcome Expected := do
  let w ← swicolRpshTaskWait time timelimit ticks unread
  let (eventList, eventIndex) := convertResultToEventList w.retbuf eventList
  .returned ⟨endStatus w.ret w.retbuf, eventList, eventIndex⟩

/-! ## Reading does not depend on the chunks -/

/-- A line as it is stored. -/
def stored (line : Bytes) : Bytes := line.filter (· != 0)

theorem swgpReadFdLine_line {chunks : List Bytes} {line rest : Bytes} (hline : 10 ∉ line)
    (h : chunks.flatten = line ++ 10 :: rest) :
    (swgpReadFdLine chunks).1 = stored line ++ [10] ∧ (swgpReadFdLine chunks).2.flatten = rest := by
  induction chunks using swgpReadFdLine.induct generalizing line with
  | case1 =>
      cases line with
      | nil => cases h
      | cons b line => cases h
  | case2 chunks ih =>
      rw [swgpReadFdLine]
      exact ih hline h
  | case3 chunk chunks =>
      rw [swgpReadFdLine, if_pos rfl]
      cases line with
      | nil =>
          injection h with _ h
          exact ⟨rfl, h⟩
      | cons b line =>
          injection h with hb _
          exact absurd (hb ▸ List.mem_cons_self) hline
  | case4 b chunk chunks hb ih =>
      cases line with
      | nil =>
          injection h with h _
          exact absurd h hb
      | cons b' line =>
          injection h with hb' h
          subst hb'
          obtain ⟨hfirst, hrest⟩ := ih (fun hmem => hline (List.mem_cons_of_mem _ hmem)) h
          rw [swgpReadFdLine, if_neg hb]
          refine ⟨?_, hrest⟩
          dsimp only
          rw [hfirst, stored, stored]
          by_cases hzero : b = 0
          · rw [if_pos hzero, List.filter_cons_of_neg (by simp [hzero])]
          · rw [if_neg hzero, List.filter_cons_of_pos (by simp [hzero])]
            rfl

theorem swgpReadFdLine_end {chunks : List Bytes} (h : chunks.flatten = []) :
    (swgpReadFdLine chunks).1 = [] ∧ (swgpReadFdLine chunks).2.flatten = [] := by
  induction chunks using swgpReadFdLine.induct with
  | case1 =>
      rw [swgpReadFdLine]
      exact ⟨rfl, rfl⟩
  | case2 chunks ih =>
      rw [swgpReadFdLine]
      exact ih h
  | case3 chunk chunks => cases h
  | case4 b chunk chunks hb ih => cases h

/-! ## One cycle after the other -/

/-- The events arrive: for each of `n` lines there is a cycle that has something to read, all of them
are within the time limit, nothing fails and nobody interrupts. -/
def Delivers (time timelimit : Int) : Nat → List Tick → Prop
  | 0, _ => True
  | _ + 1, [] => False
  | n + 1, t :: ticks =>
      t.alarm = false ∧ toCInt (t.now - time) < timelimit ∧
        match t.poll with
        | .idle => Delivers time timelimit (n + 1) ticks
        | .failed => False
        | .ready => Delivers time timelimit n ticks

namespace Wait

/-- The wait goes on, and what has been read last does not end it. -/
structure Quiet (time timelimit : Int) (stopString : Bytes) (v : Wait) : Prop where
  doStop : v.doStop = false
  alarmMonitor : v.alarmMonitor = false
  masterAlarm : v.masterAlarm = false
  inTime : v.cret = 0 ∨ toCInt (v.now - time) < timelimit
  verdict : lineVerdict stopString v.buf = none

/-- The line `line` has been read, and nothing else has happened. -/
structure HasRead (time timelimit : Int) (stopString line rest : Bytes) (v v' : Wait) : Prop where
  unread : v'.unread.flatten = rest
  buf : v'.buf = stored line ++ [10]
  retbuf : v'.retbuf = v.retbuf ++ (stored line ++ [10])
  cret : v'.cret ≠ 0
  doStop : v'.doStop = (lineVerdict stopString (stored line ++ [10])).isSome
  retval : v'.retval = (lineVerdict stopString (stored line ++ [10])).getD v.retval
  alarmMonitor : v'.alarmMonitor = false
  masterAlarm : v'.masterAlarm = false
  inTime : toCInt (v'.now - time) < timelimit

variable {time timelimit : Int} {stopString : Bytes} {v v' : Wait}

theorem Quiet.goesOn (hv : v.Quiet time timelimit stopString) : v.goesOn time timelimit = true := by
  rw [Wait.goesOn, hv.alarmMonitor, hv.doStop]
  rcases hv.inTime with hcret | htime
  · simp [hcret]
  · simp [htime]

/-- A line that does not end the wait. -/
theorem HasRead.quiet {line rest : Bytes} (hread : HasRead time timelimit stopString line rest v v')
    (hnone : lineVerdict stopString (stored line ++ [10]) = none) :
    v'.Quiet time timelimit stopString where
  doStop := by rw [hread.doStop, hnone]; rfl
  alarmMonitor := hread.alarmMonitor
  masterAlarm := hread.masterAlarm
  inTime := .inr hread.inTime
  verdict := by rw [hread.buf, hnone]

/-- A line that ends the wait. -/
theorem HasRead.loop_returned {line rest : Bytes} {ret : Int}
    (hread : HasRead time timelimit stopString line rest v v')
    (hsome : lineVerdict stopString (stored line ++ [10]) = some ret) (ticks : List Tick) :
    taskWaitLoop time timelimit stopString ticks v' = .returned v' := by
  have hend : v'.goesOn time timelimit = false := by
    rw [Wait.goesOn, hread.doStop, hsome]
    simp [hread.cret]
  cases ticks with
  | nil => rw [taskWaitLoop, hend]; rfl
  | cons t ticks => rw [taskWaitLoop, hend]; rfl

theorem cycle_idle {t : Tick} (hpoll : t.poll = .idle) (halarm : t.alarm = false)
    (htime : toCInt (t.now - time) < timelimit) (hv : v.Quiet time timelimit stopString) :
    (v.cycle stopString t).Quiet time timelimit stopString ∧
      (v.cycle stopString t).unread = v.unread ∧ (v.cycle stopString t).retbuf = v.retbuf ∧
      (v.cycle stopString t).retval = v.retval := by
  rw [cycle, hpoll, halarm]
  dsimp only [swgpReadLine]
  rw [hv.verdict, hv.doStop, hv.alarmMonitor]
  exact ⟨⟨rfl, rfl, rfl, .inr htime, hv.verdict⟩, rfl, rfl, rfl⟩

theorem cycle_ready {t : Tick} {line rest : Bytes} (hpoll : t.poll = .ready) (halarm : t.alarm = false)
    (htime : toCInt (t.now - time) < timelimit) (hv : v.Quiet time timelimit stopString)
    (hline : 10 ∉ line) (hunread : v.unread.flatten = line ++ 10 :: rest) :
    HasRead time timelimit stopString line rest v (v.cycle stopString t) := by
  obtain ⟨hbuf, hrest⟩ := swgpReadFdLine_line hline hunread
  rw [cycle, hpoll, halarm]
  dsimp only [swgpReadLine]
  rw [hbuf, hv.doStop, hv.alarmMonitor]
  refine ⟨hrest, rfl, rfl, ?_, rfl, rfl, rfl, rfl, htime⟩
  dsimp only
  split
  next => decide
  next hcret => exact hcret

/-- The next line is read, however long it takes. -/
theorem loop_read {ticks : List Tick} {n : Nat} {line rest : Bytes}
    (hv : v.Quiet time timelimit stopString) (hticks : Delivers time timelimit (n + 1) ticks)
    (hline : 10 ∉ line) (hunread : v.unread.flatten = line ++ 10 :: rest) :
    ∃ ticks' v', Delivers time timelimit n ticks' ∧
      taskWaitLoop time timelimit stopString ticks v =
        taskWaitLoop time timelimit stopString ticks' v' ∧
      HasRead time timelimit stopString line rest v v' := by
  induction ticks generalizing v with
  | nil => exact absurd hticks id
  | cons t ticks ih =>
      obtain ⟨halarm, htime, hpoll⟩ := hticks
      rw [taskWaitLoop, if_pos hv.goesOn]
      cases hp : t.poll with
      | idle =>
          rw [hp] at hpoll
          obtain ⟨hquiet, hsame, hretbuf, hretval⟩ := cycle_idle hp halarm htime hv
          obtain ⟨ticks', v', hticks', hloop, hread⟩ := ih hquiet hpoll (by rw [hsame, hunread])
          refine ⟨ticks', v', hticks', hloop, { hread with retbuf := ?_, retval := ?_ }⟩
          · rw [hread.retbuf, hretbuf]
          · rw [hread.retval, hretval]
      | failed =>
          rw [hp] at hpoll
          exact absurd hpoll id
      | ready =>
          rw [hp] at hpoll
          exact ⟨ticks, _, hpoll, rfl, cycle_ready hp halarm htime hv hline hunread⟩

/-- What has been read stays. -/
theorem retbuf_prefix {ticks : List Tick} {w : Wait}
    (h : taskWaitLoop time timelimit stopString ticks v = .returned w) : v.retbuf <+: w.retbuf := by
  induction ticks generalizing v with
  | nil =>
      rw [taskWaitLoop] at h
      split at h
      next => cases h
      next =>
        cases h
        exact List.prefix_rfl
  | cons t ticks ih =>
      rw [taskWaitLoop] at h
      split at h
      next =>
        refine List.IsPrefix.trans ?_ (ih h)
        rw [cycle]
        dsimp only
        split
        next => exact List.prefix_rfl
        next => exact List.prefix_append _ _
      next =>
        cases h
        exact List.prefix_rfl

/-- At the end of the events nothing ends the wait any more. -/
theorem doStop_of_loop {ticks : List Tick} {w : Wait} (hstop : v.doStop = false)
    (hbuf : lineVerdict stopString v.buf = none) (hempty : lineVerdict stopString [] = none)
    (hunread : v.unread.flatten = [])
    (h : taskWaitLoop time timelimit stopString ticks v = .returned w) : w.doStop = false := by
  induction ticks generalizing v with
  | nil =>
      rw [taskWaitLoop] at h
      split at h
      next => cases h
      next =>
        cases h
        exact hstop
  | cons t ticks ih =>
      rw [taskWaitLoop] at h
      split at h
      next =>
        obtain ⟨hline, hrest⟩ := swgpReadFdLine_end hunread
        have hverdict : lineVerdict stopString (swgpReadLine t.poll v.buf v.unread).2.1 = none := by
          cases t.poll with
          | idle => exact hbuf
          | failed => exact hbuf
          | ready =>
              rw [swgpReadLine]
              dsimp only
              rw [hline, hempty]
        have hunread' : (swgpReadLine t.poll v.buf v.unread).2.2.flatten = [] := by
          cases t.poll with
          | idle => exact hunread
          | failed => exact hunread
          | ready => exact hrest
        refine ih ?_ hverdict hunread' h
        rw [cycle]
        dsimp only
        rw [hstop, hverdict]
        rfl
      next =>
        cases h
        exact hstop

end Wait

/-! ## The status of a task -/

/-- An event other than the end of the task. -/
structure TaskEvent where
  code : Nat
  text : Bytes
  code_ne : code ≠ 305
  text_line : 10 ∉ text
deriving DecidableEq

namespace TaskEvent

variable (e : TaskEvent)

/-- What the remote host writes, without the newline. -/
def line : Bytes := decimal.render e.code ++ 58 :: e.text

/-- The event does not contain `305:`. -/
def Plain : Prop := ¬swicolStopString <:+: stored e.line

instance : Decidable e.Plain := inferInstanceAs (Decidable (¬_))

theorem newline_not_mem : 10 ∉ e.line := by
  intro h
  rcases List.mem_append.mp h with h | h
  · exact absurd (decimal.isDigit_of_mem_render _ _ h) (by decide)
  · rcases List.mem_cons.mp h with h | h
    · exact absurd h (by decide)
    · exact e.text_line h

end TaskEvent

/-- What is read of some events. -/
def storedEvents (events : List TaskEvent) : Bytes := events.flatMap fun e => stored e.line ++ [10]

/-- The line that ends a task, without the newline. -/
def endLine (status : Nat) : Bytes := swicolStopString ++ decimal.render status

/-- Everything the remote host writes. -/
def eventStream (events : List TaskEvent) (status : Nat) : Bytes :=
  events.flatMap (fun e => e.line ++ [10]) ++ (endLine status ++ [10])

theorem newline_not_mem_stop : 10 ∉ swicolStopString := by decide

theorem findSub_storedEvents {events : List TaskEvent} (hplain : ∀ e ∈ events, e.Plain) (rest : Bytes) :
    findSub swicolStopString (storedEvents events ++ rest) =
      (findSub swicolStopString rest).map (· + (storedEvents events).length) := by
  induction events with
  | nil =>
      rw [storedEvents, List.flatMap_nil, List.nil_append]
      cases findSub swicolStopString rest with
      | none => rfl
      | some i => rfl
  | cons e events ih =>
      have hcons : storedEvents (e :: events) = stored e.line ++ 10 :: storedEvents events := by
        rw [storedEvents, List.flatMap_cons, List.append_assoc]
        rfl
      have hrest := ih fun e' he' => hplain e' (List.mem_cons_of_mem _ he')
      rw [hcons, List.append_assoc, List.cons_append,
        findSub_append_sep newline_not_mem_stop (hplain e List.mem_cons_self), hrest, Option.map_map,
        List.length_append, List.length_cons]
      refine congrArg (Option.map · _) (funext fun i => ?_)
      dsimp only [Function.comp]
      omega

/-- A line without `305:` means nothing for the wait. -/
theorem lineVerdict_plain {e : TaskEvent} (hplain : e.Plain) :
    lineVerdict swicolStopString (stored e.line ++ [10]) = none := by
  rw [lineVerdict, findSub_append_sep newline_not_mem_stop hplain]
  rfl

theorem stored_endLine (status : Nat) : stored (endLine status) = endLine status := by
  have hstop : swicolStopString.all (· != 0) = true := rfl
  refine List.filter_eq_self.mpr fun b hb => ?_
  rcases List.mem_append.mp hb with hb | hb
  · exact List.all_eq_true.mp hstop b hb
  · rw [bne_iff_ne]
    rintro rfl
    exact absurd (decimal.isDigit_of_mem_render _ _ hb) (by decide)

theorem newline_not_mem_endLine (status : Nat) : 10 ∉ endLine status := by
  intro h
  rcases List.mem_append.mp h with h | h
  · exact newline_not_mem_stop h
  · exact absurd (decimal.isDigit_of_mem_render _ _ h) (by decide)

/-- The wait ends at a status of one digit only. -/
theorem lineVerdict_endLine {status : Nat} (h : status ≤ 255) :
    lineVerdict swicolStopString (stored (endLine status) ++ [10]) =
      if status ≤ 9 then some 0 else none := by
  rw [stored_endLine]
  have hall : ∀ n < 256, lineVerdict swicolStopString (endLine n ++ [10]) =
      if n ≤ 9 then some 0 else none := by
    decide +kernel
  exact hall status (Nat.lt_succ_of_le h)

section

open Wait

variable {time timelimit : Int} {v w : Wait}

/-- Events without `305:` are read and do not end the wait. -/
theorem loop_events {events : List TaskEvent} {rest : Bytes} {n : Nat} {ticks : List Tick}
    (hplain : ∀ e ∈ events, e.Plain) (hv : v.Quiet time timelimit swicolStopString)
    (hticks : Delivers time timelimit (events.length + n) ticks)
    (hunread : v.unread.flatten = events.flatMap (fun e => e.line ++ [10]) ++ rest) :
    ∃ ticks' v', Delivers time timelimit n ticks' ∧
      taskWaitLoop time timelimit swicolStopString ticks v =
        taskWaitLoop time timelimit swicolStopString ticks' v' ∧
      v'.Quiet time timelimit swicolStopString ∧ v'.unread.flatten = rest ∧
      v'.retbuf = v.retbuf ++ storedEvents events := by
  induction events generalizing v ticks with
  | nil =>
      rw [List.length_nil, Nat.zero_add] at hticks
      exact ⟨ticks, v, hticks, rfl, hv, hunread, (List.append_nil _).symm⟩
  | cons e events ih =>
      rw [List.length_cons, Nat.add_right_comm] at hticks
      rw [List.flatMap_cons, List.append_assoc, List.append_assoc] at hunread
      obtain ⟨ticks₁, v₁, hticks₁, hloop₁, hread⟩ :=
        loop_read hv hticks e.newline_not_mem hunread
      have hnone := lineVerdict_plain (hplain e List.mem_cons_self)
      obtain ⟨ticks₂, v₂, hticks₂, hloop₂, hquiet, hrest, hretbuf⟩ :=
        ih (fun e' he' => hplain e' (List.mem_cons_of_mem _ he')) (hread.quiet hnone) hticks₁
          hread.unread
      refine ⟨ticks₂, v₂, hticks₂, hloop₁.trans hloop₂, hquiet, hrest, ?_⟩
      rw [hretbuf, hread.retbuf, storedEvents, storedEvents, List.flatMap_cons, List.append_assoc]

/-- If `305:` is first found behind the events, none of them contains it. -/
theorem plain_of_loop {events : List TaskEvent} {rest : Bytes} {n k : Nat} {ticks : List Tick}
    (hv : v.Quiet time timelimit swicolStopString)
    (hticks : Delivers time timelimit (events.length + n) ticks)
    (hunread : v.unread.flatten = events.flatMap (fun e => e.line ++ [10]) ++ rest)
    (hloop : taskWaitLoop time timelimit swicolStopString ticks v = .returned w)
    (hfound : findSub swicolStopString w.retbuf = some k)
    (hk : (v.retbuf ++ storedEvents events).length ≤ k) : ∀ e ∈ events, e.Plain := by
  induction events generalizing v ticks with
  | nil => exact fun e he => by cases he
  | cons e events ih =>
      rw [List.length_cons, Nat.add_right_comm] at hticks
      rw [List.flatMap_cons, List.append_assoc, List.append_assoc] at hunread
      obtain ⟨ticks₁, v₁, hticks₁, hloop₁, hread⟩ :=
        loop_read hv hticks e.newline_not_mem hunread
      rw [hloop₁] at hloop
      have hlen : (v₁.retbuf ++ storedEvents events).length ≤ k := by
        rw [hread.retbuf, List.append_assoc]
        exact hk
      have hplain : e.Plain := by
        intro hin
        obtain ⟨more, hmore⟩ := retbuf_prefix hloop
        rw [← hmore] at hfound
        have hin' : swicolStopString <:+: v₁.retbuf := by
          rw [hread.retbuf, ← List.append_assoc]
          exact (hin.trans (List.suffix_append _ _).isInfix).trans (List.prefix_append _ _).isInfix
        have hle := findSub_le_of_infix hfound hin'
        have hfour : swicolStopString.length = 4 := rfl
        rw [List.length_append] at hlen
        omega
      rw [List.forall_mem_cons]
      exact ⟨hplain, ih (hread.quiet (lineVerdict_plain hplain)) hticks₁ hread.unread hloop hlen⟩

/-- The wait is ended by the line that ends the task and by no other, not by the time limit; the status
is taken from this line, and it is the one that is returned. -/
def StatusIsReported (time timelimit : Int) (ticks : List Tick) (unread : List Bytes)
    (eventList : List Bytes) (events : List TaskEvent) (status : Nat) : Prop :=
  ∃ w r, swicolRpshTaskWait time timelimit ticks unread = .returned w ∧
    swicolRpshTaskExpect time timelimit ticks unread eventList = .returned r ∧
    w.ret = 0 ∧ w.unread.flatten = [] ∧
    findSub swicolStopString w.retbuf = some (storedEvents events).length ∧ r.retval = status

theorem start_quiet (unread : List Bytes) :
    (Wait.start time unread).Quiet time timelimit swicolStopString :=
  ⟨rfl, rfl, rfl, .inl rfl, rfl⟩

theorem findSub_endLine (status : Nat) : findSub swicolStopString (endLine status ++ [10]) = some 0 := by
  rw [findSub_eq_zero, endLine, List.append_assoc]
  exact List.prefix_append _ _

/-- The status that is read back from what is written. -/
theorem endStatus_eq {events : List TaskEvent} {status : Nat} (h : status ≤ 255)
    (hplain : ∀ e ∈ events, e.Plain) :
    endStatus 0 (storedEvents events ++ (endLine status ++ [10])) = status := by
  obtain ⟨d, ds, hrender⟩ := List.exists_cons_of_ne_nil (decimal.render_ne_nil status)
  have hdigit : decimal.isDigit ((decimal.render status ++ [10]).getD 0 0) = true := by
    refine decimal.isDigit_of_mem_render status _ ?_
    rw [hrender]
    exact List.mem_cons_self
  have hdrop : (storedEvents events ++ (endLine status ++ [10])).drop
      (0 + (storedEvents events).length + 4) = decimal.render status ++ [10] := by
    rw [Nat.zero_add, ← List.drop_drop, List.drop_left, endLine, List.append_assoc]
    rfl
  rw [endStatus, findSub_storedEvents hplain, findSub_endLine, Option.map_some]
  dsimp only
  rw [hdrop, if_pos hdigit, strtol_digits (decimal.render_ne_nil status)
    (decimal.isDigit_of_mem_render status) (by decide), decimal.value_render]
  dsimp only
  have hmin : min (2 ^ 63 - 1) (status : Int) = status := by
    omega
  rw [hmin]
  exact toCInt_of_lt (by omega)

section

variable {events : List TaskEvent} {status : Nat} {ticks : List Tick} {unread eventList : List Bytes}

theorem plain_of_statusIsReported (hticks : Delivers time timelimit (events.length + 1) ticks)
    (hunread : unread.flatten = eventStream events status)
    (h : StatusIsReported time timelimit ticks unread eventList events status) :
    ∀ e ∈ events, e.Plain := by
  obtain ⟨w, r, hwait, -, -, -, hfound, -⟩ := h
  obtain ⟨v, hloop, hwait⟩ := Outcome.bind_eq_returned.mp hwait
  cases hwait
  exact plain_of_loop (start_quiet unread) hticks hunread hloop hfound (Nat.le_refl _)

/-- A status of more than one digit is not seen, and the wait runs into the time limit. -/
theorem short_of_statusIsReported (hstatus : status ≤ 255)
    (hticks : Delivers time timelimit (events.length + 1) ticks)
    (hunread : unread.flatten = eventStream events status)
    (h : StatusIsReported time timelimit ticks unread eventList events status) : status ≤ 9 := by
  have hplain := plain_of_statusIsReported hticks hunread h
  obtain ⟨w, r, hwait, -, hret, -⟩ := h
  obtain ⟨v, hloop, hwait⟩ := Outcome.bind_eq_returned.mp hwait
  cases hwait
  by_contra hlong
  obtain ⟨ticks₁, v₁, hticks₁, hloop₁, hquiet₁, hunread₁, -⟩ :=
    loop_events hplain (start_quiet unread) hticks hunread
  obtain ⟨ticks₂, v₂, -, hloop₂, hread⟩ := loop_read hquiet₁ hticks₁
    (newline_not_mem_endLine status) hunread₁
  rw [hloop₁, hloop₂] at hloop
  have hnone := lineVerdict_endLine hstatus
  rw [if_neg hlong] at hnone
  have hquiet₂ := hread.quiet hnone
  have hstop : v.doStop = false :=
    doStop_of_loop hquiet₂.doStop hquiet₂.verdict rfl hread.unread hloop
  dsimp only at hret
  rw [hstop] at hret
  split at hret
  next => cases hret
  next hmaster =>
    rw [if_pos (by simpa using Or.inr hmaster)] at hret
    cases hret

theorem statusIsReported_of_short (hshort : status ≤ 9) (hplain : ∀ e ∈ events, e.Plain)
    (hticks : Delivers time timelimit (events.length + 1) ticks)
    (hunread : unread.flatten = eventStream events status) :
    StatusIsReported time timelimit ticks unread eventList events status := by
  have hstatus : status ≤ 255 := Nat.le_trans hshort (by decide)
  obtain ⟨ticks₁, v₁, hticks₁, hloop₁, hquiet₁, hunread₁, hretbuf₁⟩ :=
    loop_events hplain (start_quiet unread) hticks hunread
  obtain ⟨ticks₂, v₂, -, hloop₂, hread⟩ := loop_read hquiet₁ hticks₁
    (newline_not_mem_endLine status) hunread₁
  have hsome := lineVerdict_endLine hstatus
  rw [if_pos hshort] at hsome
  have hloop := (hloop₁.trans hloop₂).trans (hread.loop_returned hsome ticks₂)
  have hretbuf : v₂.retbuf = storedEvents events ++ (endLine status ++ [10]) := by
    rw [hread.retbuf, hretbuf₁, stored_endLine]
    rfl
  have hdo : v₂.doStop = true := by
    rw [hread.doStop, hsome]
    rfl
  have hretval : v₂.retval = 0 := by
    rw [hread.retval, hsome]
    rfl
  have hwait : swicolRpshTaskWait time timelimit ticks unread =
      .returned ⟨0, v₂.retbuf, v₂.unread⟩ := by
    rw [swicolRpshTaskWait, taskWaitFor, hloop, Outcome.returned_bind, hdo, hread.alarmMonitor,
      hread.masterAlarm, hretval]
    rfl
  have hexpect : swicolRpshTaskExpect time timelimit ticks unread eventList =
      .returned ⟨endStatus 0 v₂.retbuf, (convertResultToEventList v₂.retbuf eventList).1,
        (convertResultToEventList v₂.retbuf eventList).2⟩ := by
    rw [swicolRpshTaskExpect, hwait]
    rfl
  refine ⟨_, _, hwait, hexpect, rfl, hread.unread, ?_, ?_⟩
  · dsimp only
    rw [hretbuf, findSub_storedEvents hplain, findSub_endLine, Option.map_some, Nat.zero_add]
  · dsimp only
    rw [hretbuf, endStatus_eq hstatus hplain]

/-- For every stream of events that arrives within the time limit, in whatever chunks: the status is
reported if and only if it has one digit and no other event contains `305:`. -/
theorem statusIsReported_iff (hstatus : status ≤ 255)
    (hticks : Delivers time timelimit (events.length + 1) ticks)
    (hunread : unread.flatten = eventStream events status) :
    StatusIsReported time timelimit ticks unread eventList events status ↔
      status ≤ 9 ∧ ∀ e ∈ events, e.Plain := by
  constructor
  · intro h
    exact ⟨short_of_statusIsReported hstatus hticks hunread h,
      plain_of_statusIsReported hticks hunread h⟩
  · rintro ⟨hshort, hplain⟩
    exact statusIsReported_of_short hshort hplain hticks hunread

end

end

/-- The event `304:a` and the status 0, in two chunks, with a pause between them. -/
theorem statusIsReported_zero :
    StatusIsReported 0 20 [⟨0, false, 0, .ready⟩, ⟨1, false, 0, .idle⟩, ⟨2, false, 0, .ready⟩]
      [chars ['3', '0', '4', ':', 'a', '\n', '3'], chars ['0', '5', ':', '0', '\n']] []
      [⟨304, chars ['a'], by decide, by decide⟩] 0 := by
  have hticks : Delivers 0 20 2 [⟨0, false, 0, .ready⟩, ⟨1, false, 0, .idle⟩, ⟨2, false, 0, .ready⟩] :=
    ⟨rfl, by decide, rfl, by decide, rfl, by decide, trivial⟩
  refine (statusIsReported_iff (by decide) hticks (by decide)).mpr ⟨by decide, fun e he => ?_⟩
  rw [List.mem_singleton.mp he]
  decide

/-- The status 10 is not reported: the wait goes on until the time limit of 20 seconds. -/
theorem two_digits_not_reported :
    ¬∀ (time timelimit : Int) (events : List TaskEvent) (status : Nat) (ticks : List Tick)
      (unread eventList : List Bytes), status ≤ 255 → Delivers time timelimit (events.length + 1) ticks →
      unread.flatten = eventStream events status →
      StatusIsReported time timelimit ticks unread eventList events status := by
  intro hclaim
  have hticks : Delivers 0 20 1 [⟨0, false, 0, .ready⟩, ⟨20, false, 0, .idle⟩] :=
    ⟨rfl, by decide, trivial⟩
  have hreported := hclaim 0 20 [] 10 _ [eventStream [] 10] [] (by decide) hticks (by decide)
  have hshort := short_of_statusIsReported (by decide) hticks (by decide) hreported
  exact absurd hshort (by decide)

end Swbis.Misc
