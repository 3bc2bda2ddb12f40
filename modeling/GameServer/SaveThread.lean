import Mathlib.Tactic
import GameServer.SaveQueue
import GameServer.FormatSql

/-!
# The saver thread

`dealevent` pops an event, loads its record from redis and writes it with one SQL statement; the
load and the query are its two yield points, and between them it runs without interruption.
Meanwhile tasks of the database service write records, each task calling `addevent` after its last
write, and `saveall` starts a thread that polls the length of the queue and then answers.

A load reads a record field by field. `clean` says that the record was not written since its load
began; otherwise the load may return any mixture.
-/

namespace GameServer.SaveThread

open SaveQueue FormatSql Transition

inductive Statement
  | replace (sql : String)
  | delete
  deriving DecidableEq

/-- What the statement leaves in the row of its record: the text that wrote it. -/
def Statement.row : Statement → Option String
  | .replace sql => some sql
  | .delete => none

/-- Where `dealevent` stands; `left` counts the rounds left of `for i=1, savenum`. -/
inductive Saver
  | sleeping
  | loading (cmd : Event) (left : ℕ) (clean : Bool)
  | querying (cmd : Event) (stmt : Statement) (left : ℕ)
  | dead
  deriving DecidableEq

def Saver.cmd? : Saver → Option Event
  | .loading cmd _ _ => some cmd
  | .querying cmd _ _ => some cmd
  | _ => none

/-- A write of record `r` spoils the load of `r` under way. -/
def Saver.written (r : Record) : Saver → Saver
  | .loading cmd left clean => .loading cmd left (clean && decide (cmd.record ≠ r))
  | saver => saver

structure State where
  dbcmd : Dbcmd := {}
  /-- What the load of a record returns, `none` for `nil`. -/
  redis : Record → Option Fields
  /-- The updates begun whose `addevent` has not been handled. -/
  updates : List (Record × EventType) := []
  row : Record → Option String
  saver : Saver := .sleeping
  /-- `config.mysql.savenum` -/
  savenum : ℕ := 10000
  /-- The threads started by `saveall`, each with the number of `addevent` calls that had returned
  when it was called. -/
  polls : List ℕ := []
  -- the history
  written : List Record := []
  added : List Record := []
  answered : List ℕ := []
  /-- For each record how many of the calls in `added` its last completed statement came after. -/
  saved : Record → ℕ := fun _ => 0
  /-- The call that put the event of the record into the queue. -/
  since : Record → ℕ := fun _ => 0
  /-- The same of the event popped last, and the number of calls at that pop. -/
  popSince : ℕ := 0
  popMark : ℕ := 0

namespace State

def pushed (s : State) (r : Record) : Record → ℕ :=
  if s.dbcmd.opevent (index r) = none then Function.update s.since r s.added.length else s.since

def take (s : State) (dbcmd : Dbcmd) (cmd : Event) (left : ℕ) : State :=
  { s with
    dbcmd
    popSince := s.since cmd.record
    popMark := s.added.length
    saver := match cmd.type with
      | .R => .loading cmd left true
      | .D => .querying cmd .delete left }

/-- The loop from the head of a round to the next yield point. -/
def round (s : State) : ℕ → State
  | 0 => { s with saver := .sleeping }
  | left + 1 =>
      match s.dbcmd.pop with
      | none => { s with saver := .dead }
      | some (dbcmd, none) => { s with dbcmd, saver := .sleeping }
      | some (dbcmd, some cmd) => s.take dbcmd cmd left

def save (s : State) (r : Record) (stmt : Statement) : State :=
  { s with
    saver := .sleeping
    row := Function.update s.row r stmt.row
    saved := Function.update s.saved r s.popMark }

end State

/-- How a query ends: done, with `errno` set, or by an error. -/
inductive Reply
  | ok | errno | error
  deriving DecidableEq

inductive Label
  | update (r : Record) (type : EventType)
  | write (r : Record) (unit : Option Fields)
  | addevent (r : Record) (type : EventType)
  | wake
  /-- The reply of the load, `none` for an error; `unit` is what a spoilt load returns. -/
  | loaded (reply : Option (Option Fields))
  | queried (reply : Reply)
  | saveall
  | poll (i : ℕ)

variable (load : Evaluate)

def State.unit (s : State) (r : Record) (clean : Bool) (unit : Option Fields) : Option Fields :=
  if clean then s.redis r else unit

def step (s : State) : Label → Option State
  | .update r type => some { s with updates := (r, type) :: s.updates }
  | .write r unit =>
      if r ∈ s.updates.map Prod.fst then
        some { s with
          redis := Function.update s.redis r unit
          written := r :: s.written
          saver := s.saver.written r }
      else none
  | .addevent r type =>
      if (r, type) ∈ s.updates then
        some { s with
          dbcmd := s.dbcmd.addevent ⟨r.1, r.2, type⟩
          updates := s.updates.erase (r, type)
          since := s.pushed r
          added := s.added ++ [r] }
      else none
  | .wake => if s.saver = .sleeping then some (s.round s.savenum) else none
  | .loaded reply =>
      match s.saver with
      | .loading cmd left clean =>
          match reply with
          | none => some { s with saver := .dead }
          | some unit =>
              match formatsql load cmd.key cmd.table (s.unit cmd.record clean unit) with
              | none => some { s with saver := .dead }
              | some sql => some { s with saver := .querying cmd (.replace sql) left }
      | _ => none
  | .queried reply =>
      match s.saver with
      | .querying cmd stmt left =>
          match reply with
          | .ok => some ((s.save cmd.record stmt).round left)
          | .errno =>
              match stmt with
              | .replace _ => some (s.round left)
              -- the message of a failed deletion is made of `sql`, which is nil there
              | .delete => some { s with saver := .dead }
          | .error => some { s with saver := .dead }
      | _ => none
  | .saveall => some { s with
      savenum := 0x7fffffff
      polls := s.polls ++ [s.added.length] }
  | .poll i =>
      match s.polls[i]? with
      | none => none
      | some mark =>
          if s.dbcmd.tail - s.dbcmd.head = 0 then
            some { s with polls := s.polls.eraseIdx i, answered := s.answered ++ [mark] }
          else some s

/-- The service from the moment `dispatcher` has forked the saver. -/
def saveThread (redis : Record → Option Fields) (row : Record → Option String) :
    System State Label where
  init := { redis, row }
  step := step load

/-! ## What is asked of a run, and of its states -/

def Succeeds : Label → Prop
  | .loaded reply => reply ≠ none
  | .queried reply => reply = .ok
  | _ => True

/-- Every unit loaded is one that `formatsql` can write. -/
def LoadsWritable (s : State) : Label → Prop
  | .loaded (some unit) => ∀ cmd left clean, s.saver = .loading cmd left clean →
      Writable load cmd.table (s.unit cmd.record clean unit)
  | _ => True

def Replaces : Label → Prop
  | .update _ type => type = .R
  | _ => True

def ReplaceOk (s : State) (l : Label) : Prop :=
  Replaces l ∧ Succeeds l ∧ LoadsWritable load s l

/-- The queue is empty, every `addevent` has been handled and the saver holds no event. -/
def Quiescent (s : State) : Prop :=
  s.dbcmd.head = s.dbcmd.tail ∧ s.updates = [] ∧ s.saver.cmd? = none

/-- The row of the record is what `formatsql` makes of it. -/
def Current (s : State) (r : Record) : Prop :=
  ∃ sql, formatsql load r.2 r.1 (s.redis r) = some sql ∧ s.row r = some sql

/-- A statement for the record of the `n`-th `addevent` call completed that was begun after it. -/
def Completed (s : State) (n : ℕ) : Prop :=
  ∃ r, s.added[n]? = some r ∧ n < s.saved r

/-- The saver holds an event that was put into the queue before the call numbered `mark`. -/
def HoldsBefore (s : State) (mark : ℕ) : Prop :=
  s.saver.cmd? ≠ none ∧ s.popSince < mark

def SaveOk (s : State) (l : Label) : Prop := Succeeds l ∧ LoadsWritable load s l

/-- A poll that finds the queue empty does not find the saver holding an event from before its
`saveall`. -/
def FlushOk (s : State) (l : Label) : Prop :=
  SaveOk load s l ∧ ∀ i mark, l = .poll i → s.polls[i]? = some mark →
    s.dbcmd.head = s.dbcmd.tail → ¬ HoldsBefore s mark

end GameServer.SaveThread
