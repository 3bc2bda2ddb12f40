import Mathlib.Tactic
import GameServer.Transition

/-!
# The queue of the write-behind service

`bgsavemysql` keeps pending save events in `dbcmd`, a table indexed from `head` to `tail - 1`, and
in `opevent`, which maps the text `table..key` to the pending event of that record. Both refer to
one event object, so `addevent` can change the type of an event that already waits in the queue.
The model keeps the objects in a list and lets `slot` and `opevent` hold references to them.
-/

namespace GameServer.SaveQueue

/-- The stored tables. -/
inductive Table
  | account | cards | explores | cooldown | activity | skills | missions | mails | fightrecords
  deriving DecidableEq

def Table.name : Table → String
  | .account => "account"
  | .cards => "cards"
  | .explores => "explores"
  | .cooldown => "cooldown"
  | .activity => "activity"
  | .skills => "skills"
  | .missions => "missions"
  | .mails => "mails"
  | .fightrecords => "fightrecords"

/-- Replace or delete. -/
inductive EventType
  | R | D
  deriving DecidableEq

/-- What an event is about: a table and a key in it. -/
abbrev Record := Table × String

instance : LawfulBEq Record := inferInstance

structure Event where
  table : Table
  key : String
  type : EventType
  deriving DecidableEq

def Event.record (e : Event) : Record := (e.table, e.key)

/-- The text `table..key`. -/
def index (r : Record) : String := r.1.name ++ r.2

structure Dbcmd where
  head : ℕ := 1
  tail : ℕ := 1
  slot : ℕ → Option ℕ := fun _ => none
  opevent : String → Option ℕ := fun _ => none
  events : List Event := []

namespace Dbcmd

/-- A new event object; the reference is its position. -/
def alloc (s : Dbcmd) (e : Event) : Dbcmd × ℕ :=
  ({ s with events := s.events ++ [e] }, s.events.length)

def push (s : Dbcmd) (v : ℕ) (e : Event) : Dbcmd :=
  { s with
    slot := Function.update s.slot s.tail (some v)
    opevent := Function.update s.opevent (index e.record) (some v)
    tail := s.tail + 1 }

/-- `none` when an empty slot is indexed, an error in the code; otherwise the queue after the call
and the event returned, if any. -/
def pop (s : Dbcmd) : Option (Dbcmd × Option Event) :=
  if s.head = s.tail then some (s, none)
  else do
    let v ← s.slot s.head
    let e ← s.events[v]?
    let s := { s with
      slot := Function.update s.slot s.head none
      opevent := Function.update s.opevent (index e.record) none
      head := s.head + 1 }
    if s.head = s.tail then some ({ s with head := 1, tail := 1 }, some e) else some (s, some e)

def addevent (s : Dbcmd) (e : Event) : Dbcmd :=
  match s.opevent (index e.record) with
  | some v => { s with events := s.events.modify v (fun old => { old with type := e.type }) }
  | none => let (s, v) := s.alloc e; s.push v e

end Dbcmd

inductive Op
  | addevent (e : Event)
  | pop

/-- What happened to the queue: an event added, an event popped, or a pop that found nothing. -/
inductive Entry
  | added (e : Event)
  | popped (e : Event)
  | nothing
  deriving DecidableEq

/-- The operation that an entry is about. -/
def Entry.op : Entry → Op
  | .added e => .addevent e
  | .popped _ | .nothing => .pop

/-- The queue with the history of the operations on it. -/
structure Traced where
  queue : Dbcmd := {}
  history : List Entry := []

def Traced.step (s : Traced) : Op → Option Traced
  | .addevent e => some ⟨s.queue.addevent e, s.history ++ [.added e]⟩
  | .pop => s.queue.pop.map (fun r => ⟨r.1, s.history ++ [r.2.elim .nothing .popped]⟩)

def queue : Transition.System Traced Op where
  init := {}
  step := Traced.step

/-! ## What the queue is for -/

/-- The type last added for a record since its last pop. -/
def latestType (h : List Entry) (r : Record) : Option EventType :=
  h.foldl (fun latest entry => match entry with
    | .added e => if e.record = r then some e.type else latest
    | .popped e => if e.record = r then none else latest
    | .nothing => latest) none

/-- The records added since their last pop, in the order of the first addition since then. -/
def firstInserted (h : List Entry) : List Record :=
  h.foldl (fun order entry => match entry with
    | .added e => if e.record ∈ order then order else order ++ [e.record]
    | .popped e => order.erase e.record
    | .nothing => order) []

/-- Every pop took the record first inserted, with the type last added, or found none waiting. -/
def PopsInOrder (h : List Entry) : Prop :=
  (∀ before e after, h = before ++ .popped e :: after →
    (firstInserted before).head? = some e.record ∧ latestType before e.record = some e.type) ∧
  (∀ before after, h = before ++ .nothing :: after → firstInserted before = [])

/-- The queue holds exactly the events `pending`, in that order. -/
structure Represents (s : Dbcmd) (pending : List Event) : Prop where
  tail_eq : s.tail = s.head + pending.length
  /-- `dbcmd[head .. tail-1]` are the pending events and every other slot is empty. -/
  slot_eq : ∀ i, (s.slot i).bind (s.events[·]?) =
    if s.head ≤ i then pending[i - s.head]? else none
  /-- `opevent` leads to the pending event with that text, and to nothing else. -/
  opevent_eq : ∀ text, (s.opevent text).bind (s.events[·]?) =
    pending.find? (fun e => index e.record = text)
  /-- Both refer to one object, so a change through one is seen through the other. -/
  shared : ∀ i v e, s.slot i = some v → s.events[v]? = some e → s.opevent (index e.record) = some v

end GameServer.SaveQueue
