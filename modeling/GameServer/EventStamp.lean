import Mathlib.Data.List.AList
import GameServer.Transition

/-!
# Event stamps and the queries that wait for them

A query of a client waits in `coroutineResponse` until the stamp of its event passes the stamp that
it came with; `newClientReq` says that somebody waits. One coroutine for each event calls all
responses that wait. A coroutine dies by an error: where no handler is defined (`syslog` is no
global there), and where `clear_coroutine` took the list of its responses. Resuming a dead coroutine
does nothing. Stamps that are missing are 0, as both readers make them. Responses have numbers,
which are history.
-/

namespace GameServer.EventStamp

open Transition

namespace EventStampType

def Move : ℤ := 0
def Stats : ℤ := 2
def Hp_Mp : ℤ := 4

end EventStampType

/-- What a handler answers; places, directions and stats are left out. -/
inductive Reply
  | move (stamp : ℕ)
  | stats (stamp : ℕ)
  | hpMp (stamp : ℕ) (n32Hp n32Mp n32Shield : ℤ) (mask : BitVec 64)
  | none
  deriving DecidableEq

inductive Thread
  | suspended
  | dead
  deriving DecidableEq

structure Entity where
  serverEventStamps : ℤ → ℕ
  newClientReq : ℤ → Bool
  coroutinePool : ℤ → Option Thread
  coroutineResponse : AList fun _ : ℤ => List ℕ
  hp : ℚ
  mp : ℚ
  shield : ℚ
  maskHpMpChange : BitVec 64
  /-- History: the responses that were called, with what. -/
  answers : List (ℕ × Reply)

namespace Entity

variable (self : Entity)

/-- The responses that wait for the event. -/
def waiting (event : ℤ) : List ℕ := (self.coroutineResponse.lookup event).getD []

/-- `EventStampHandle[event]` -/
def handle (event : ℤ) : Option Reply :=
  let stamp := self.serverEventStamps event
  if event = EventStampType.Move then some (.move stamp)
  else if event = EventStampType.Stats then some (.stats stamp)
  else if event = EventStampType.Hp_Mp then
    some (.hpMp stamp ⌊self.hp⌋ ⌊self.mp⌋ ⌊self.shield⌋ self.maskHpMpChange)
  else none

def createHandleCoroutine (event : ℤ) (response : ℕ) : Entity :=
  { self with
    coroutinePool := if self.coroutinePool event = none then
      Function.update self.coroutinePool event (some .suspended) else self.coroutinePool
    coroutineResponse :=
      self.coroutineResponse.insert event (self.waiting event ++ [response]) }

def respClientEventStamp (event : ℤ) : Entity :=
  if self.coroutinePool event = some .suspended then
    match self.handle event, self.coroutineResponse.lookup event with
    | some r, some responses =>
      { self with
        answers := self.answers ++ responses.map fun v => (v, r)
        coroutineResponse := self.coroutineResponse.insert event [] }
    | _, _ =>
      { self with coroutinePool := Function.update self.coroutinePool event (some .dead) }
  else self

def onRespClientEventStamp (event : ℤ) : Entity :=
  if event = EventStampType.Hp_Mp then { self with maskHpMpChange := 0 } else self

/-- The answer that `advanceEventStamp` and `checkeventStamp` give. -/
def respond (event : ℤ) : Entity :=
  ({ self with newClientReq := Function.update self.newClientReq event false
    }.respClientEventStamp event).onRespClientEventStamp event

def advanceEventStamp (event : ℤ) : Entity :=
  let self := { self with
    serverEventStamps := Function.update self.serverEventStamps event
      (self.serverEventStamps event + 1) }
  if self.newClientReq event then self.respond event else self

def checkeventStamp (event stamp : ℤ) : Entity :=
  if self.serverEventStamps event > stamp then self.respond event
  else { self with newClientReq := Function.update self.newClientReq event true }

/-- `clear_coroutine`, of which `IPet.onDead` has a copy. -/
def clear_coroutine : Entity :=
  { self with
    answers := self.answers ++
      self.coroutineResponse.entries.flatMap fun e => e.2.map fun q => (q, .none)
    coroutineResponse := ∅ }

/-- `query_event_func` of the room. -/
def query_event_func (event stamp : ℤ) (response : ℕ) : Entity :=
  (self.createHandleCoroutine event response).checkeventStamp event stamp

end Entity

/-- `asked` is history: the event and the stamp of each query. -/
structure State where
  entity : Entity
  asked : List (ℤ × ℤ)

inductive Label
  | query (event stamp : ℤ)
  | advance (event : ℤ)
  | clear

namespace State

def step (s : State) : Label → State
  | .query event stamp =>
    ⟨s.entity.query_event_func event stamp s.asked.length, s.asked ++ [(event, stamp)]⟩
  | .advance event => { s with entity := s.entity.advanceEventStamp event }
  | .clear => { s with entity := s.entity.clear_coroutine }

end State

/-- An entity with its health, mana and shield. -/
def create (hp mp shield : ℚ) : Entity where
  serverEventStamps _ := 0
  newClientReq _ := false
  coroutinePool _ := none
  coroutineResponse := ∅
  hp := hp
  mp := mp
  shield := shield
  maskHpMpChange := 0
  answers := []

def system (hp mp shield : ℚ) : System State Label where
  init := ⟨create hp mp shield, []⟩
  step s l := some (s.step l)

end GameServer.EventStamp
