import GameServer.Cooperative
import Mathlib.Data.List.AList

/-!
# Connections, agents and rooms

The gate, the watchdog, the login services, the server manager and the agents, with every place
where a handler waits for another service. A call is two of them where both sides read what may
change: its way there and the answer. An agent that has exited raises an error in its callers.
`fd`s, agents and rooms are numbered as they are made.

The socket server tells the gate when a socket is closed that the gate owns; until `forward` the
login service owns it. `pairs` goes over the keys that a table has when the loop begins, in any
order: what a key that is added meanwhile does to a loop, Lua leaves open.
-/

namespace GameServer.Watchdog

open Cooperative Coroutine

abbrev Account := String

abbrev Fd := ℕ

abbrev Address := ℕ

abbrev Room := ℕ

/-! ## The state -/

/-- `connection[fd]` of the gate. `serving` is the entry of `gateserver`, which a kick makes
false. -/
structure Connection where
  agent : Option Address
  serving : Bool
  deriving DecidableEq

/-- `account`, `isAi` and `fd` come with `Start`; nothing reads them before. `told` says that a
`disconnect` was sent. -/
structure Agent where
  account : Account
  isAi : Bool
  fd : Option Fd
  userFd : Option Fd
  refConnect : ℤ
  started : Bool
  told : Bool
  exited : Bool
  deriving DecidableEq

/-- Tables that no loop goes over are functions. -/
structure Tables where
  agentfd : Fd → Option Address
  agentAccount : AList fun _ : Fd => Account
  connection : Fd → Option Connection
  connected : Fd → Bool
  /-- Whether the gate gets what the socket server says of the socket. -/
  atGate : Fd → Bool
  agents : Address → Agent
  roomAccount : AList fun _ : Account => Room
  roomAgent : Account → Option Address
  /-- The players of the rooms that run. -/
  rooms : Room → Option (List Address)
  /-- What a room answers, or an error where it does not find the player. -/
  offLineTime : Room → Account → Option ℚ
  nextFd : ℕ
  nextAgent : ℕ
  nextRoom : ℕ

/-- What a `userEnter` leaves behind. `origin` is the connection over which `enterGame` was sent. -/
structure Entrance where
  account : Account
  origin : Fd
  tables : Tables

/-- `counted` is history: the agent that has counted the connection, and `held` says whether it
still does. `seat` is the agent that counts the room of the account. -/
structure Game extends Tables where
  /-- How many loops with `pairs` have begun. -/
  scans : ℕ
  counted : Fd → Option Address
  held : Fd → Bool
  seat : Account → Option Address
  entered : List Entrance

/-- A `userEnter` that closes a connection: its arguments, and the keys to come. -/
structure Entry where
  account : Account
  fd : Fd
  origin : Fd
  rest : List Fd
  deriving DecidableEq

inductive Wait
  /-- A login, until `agentEnter` -/
  | asked (fd : Fd) (account : Account)
  | seeking (fd : Fd) (account : Account) (map : Room)
  | answered (fd : Fd) (account : Account) (offLinetime : ℚ)
  | found (fd : Fd) (a : Address)
  | making (fd : Option Fd) (account : Account)
  /-- A call of `Start` or `reconnect`, which has not counted yet -/
  | starting (a : Address) (fd : Option Fd)
  | returning (a : Address) (fd : Fd)
  | forward (fd : Fd) (a : Address)
  | failed (a : Address)
  | closing (fd : Fd)
  /-- `closeAgent` -/
  | kick (fd : Fd) (a : Address)
  | release (fd : Fd) (a : Address)
  | released (a : Address) (ref : ℤ)
  | exiting (a : Address)
  | enterGame (a : Address) (fd : Fd)
  | userEnter (account : Account) (fd origin : Fd)
  /-- `roomstart`, with the players to come -/
  | roomstart (room : Room) (players : List Address)
  | seating (room : Room) (a : Address) (rest : List Address)
  | seated (room : Room) (rest : List Address)
  /-- `roomend`, with the keys to come -/
  | roomend (room : Room)
  | unseating (room : Room) (k : Account) (a : Address) (rest : List Account)
  | unseated (room : Room) (k : Account) (a : Address) (ref : ℤ) (rest : List Account)
  deriving DecidableEq

structure Place where
  wait : Wait
  entry : Option Entry
  deriving DecidableEq

abbrev Code (α : Type) := Coroutine Game Place α

/-- The orders in which `pairs` goes over keys, loop by loop. -/
structure Order where
  fds : ℕ → List Fd → List Fd
  fds_perm : ∀ i keys, (fds i keys).Perm keys
  accounts : ℕ → List Account → List Account
  accounts_perm : ∀ i keys, (accounts i keys).Perm keys

namespace Game

variable (s : Game)

def setAgent (a : Address) (v : Agent) : Game := { s with agents := Function.update s.agents a v }

/-- A socket is accepted. -/
def connect : Game :=
  { s with
    connection := Function.update s.connection s.nextFd (some ⟨none, true⟩)
    connected := Function.update s.connected s.nextFd true
    nextFd := s.nextFd + 1 }

/-- The agent is as it was at the beginning. -/
def newservice (account : Account) (fd : Option Fd) : Game :=
  let v := s.agents s.nextAgent
  { s.setAgent s.nextAgent { v with account := account, isAi := fd.isNone, fd := fd } with
    nextAgent := s.nextAgent + 1 }

def setAgentfd (fd : Fd) (a : Address) : Game :=
  { s with agentfd := Function.update s.agentfd fd (some a) }

def count (fd : Fd) (a : Address) : Game :=
  { s with
    counted := Function.update s.counted fd (some a)
    held := Function.update s.held fd true }

def addConnectRef (a : Address) (r : ℤ) : Game :=
  let v := s.agents a
  s.setAgent a { v with refConnect := v.refConnect + r }

def start (a : Address) (fd : Option Fd) : Game :=
  let s' := s.setAgent a { s.agents a with started := true, userFd := fd, refConnect := 1 }
  fd.elim s' (s'.count · a)

def reconnect (a : Address) (fd : Fd) : Game :=
  let v := s.agents a
  (s.setAgent a { v with userFd := some fd, refConnect := v.refConnect + 1 }).count fd a

/-- `agentfd[fd] = nil; agentAccount[fd] = nil` -/
def forget (fd : Fd) : Game :=
  { s with
    agentfd := Function.update s.agentfd fd none
    agentAccount := s.agentAccount.erase fd }

/-- `closeclient` of `gateserver` -/
def kick (fd : Fd) : Game :=
  match s.connection fd with
  | some ⟨agent, true⟩ =>
    { s with
      connection := Function.update s.connection fd (some ⟨agent, false⟩)
      connected := Function.update s.connected fd false
      atGate := Function.update s.atGate fd true }
  | _ => s

/-- The gate has the connection `c` and hands it to the agent. -/
def forward (fd : Fd) (a : Address) (c : Connection) : Game :=
  { s with
    connection := Function.update s.connection fd (some { c with agent := some a })
    atGate := Function.update s.atGate fd (s.atGate fd || c.serving) }

/-- The gate hears that the socket is closed. -/
def disconnected (fd : Fd) : Game :=
  { s with connection := Function.update s.connection fd none }

/-- `addConnectRef(-1)` for a connection -/
def release (fd : Fd) (a : Address) : Game :=
  { s.addConnectRef a (-1) with held := Function.update s.held fd false }

/-- `skynet.send(a, "lua", "disconnect")` -/
def tell (a : Address) : Game := s.setAgent a { s.agents a with told := true }

def exit (a : Address) : Game := s.setAgent a { s.agents a with exited := true, userFd := none }

def scan : Game := { s with scans := s.scans + 1 }

/-- `agentAccount[fd] = accountId` -/
def enter (account : Account) (fd origin : Fd) : Game :=
  let tables := { s.toTables with agentAccount := s.agentAccount.insert fd account }
  { s with
    toTables := tables
    entered := s.entered ++ [⟨account, origin, tables⟩] }

def openRoom (players : List Address) : Game :=
  { s with
    rooms := Function.update s.rooms s.nextRoom (some players)
    nextRoom := s.nextRoom + 1 }

def closeRoom (room : Room) : Game := { s with rooms := Function.update s.rooms room none }

/-- `roomAccount[v.account] = room; roomAgent[v.account] = v.agent` -/
def setRoom (room : Room) (a : Address) : Game :=
  let k := (s.agents a).account
  { s with
    roomAccount := s.roomAccount.insert k room
    roomAgent := Function.update s.roomAgent k (some a) }

/-- `addConnectRef(1)` for a room -/
def sit (a : Address) : Game :=
  { s.addConnectRef a 1 with seat := Function.update s.seat (s.agents a).account (some a) }

/-- `addConnectRef(-1)` for a room -/
def rise (k : Account) (a : Address) : Game :=
  { s.addConnectRef a (-1) with seat := Function.update s.seat k none }

/-- `roomAgent[k] = nil; roomAccount[k] = nil` -/
def clearRoom (k : Account) : Game :=
  { s with
    roomAccount := s.roomAccount.erase k
    roomAgent := Function.update s.roomAgent k none }

end Game

/-! ## Handlers -/

def wait (w : Wait) : Code Unit := Coroutine.call ⟨w, none⟩

/-- A call of the agent is an error when the agent has exited. -/
def alive (a : Address) : Code Unit := do
  let s ← get
  Coroutine.when ((s.agents a).exited = true) Coroutine.raise

def closeAgent (fd : Fd) (entry : Option Entry) : Code Unit := do
  let s ← get
  modify (Game.forget · fd)
  (s.agentfd fd).forM fun a => do
    Coroutine.call ⟨.kick fd a, entry⟩
    modify (Game.kick · fd)
    Coroutine.call ⟨.release fd a, entry⟩
    alive a
    modify (Game.release · fd a)
    let s ← get
    let ref := (s.agents a).refConnect
    Coroutine.call ⟨.released a ref, entry⟩
    Coroutine.when (ref ≤ 0) (modify (Game.tell · a))

def kickSelf (a : Address) : Code Unit := do
  let s ← get
  (s.agents a).userFd.forM fun fd => do
    wait (.closing fd)
    closeAgent fd none

/-- `forward` of the gate, with the way the agent handles its error. -/
def forward (fd : Fd) (a : Address) : Code Unit := do
  wait (.forward fd a)
  let s ← get
  match s.connection fd with
  | some c => modify (Game.forward · fd a c)
  | none =>
    wait (.failed a)
    kickSelf a

/-- The agent is new: nobody has told it to disconnect. -/
def Start (a : Address) (fd : Option Fd) : Code Unit := do
  wait (.starting a fd)
  modify (Game.start · a fd)
  fd.forM fun fd => forward fd a

def reconnect (a : Address) (fd : Fd) : Code Unit := do
  wait (.returning a fd)
  alive a
  modify (Game.reconnect · a fd)
  forward fd a

/-- `newservice` and `agentEnter` of the watchdog. -/
def enterNew (fd : Option Fd) (account : Account) : Code Unit := do
  wait (.making fd account)
  let s ← get
  let a := s.nextAgent
  modify (Game.newservice · account fd)
  fd.forM fun fd => modify (Game.setAgentfd · fd a)
  Start a fd

/-- `agentEnter` with an agent that is in a room. -/
def enterAgain (fd : Fd) (a : Address) : Code Unit := do
  wait (.found fd a)
  modify (Game.setAgentfd · fd a)
  reconnect a fd

/-- `getAgent` of the server manager -/
def getAgent (fd : Fd) (account : Account) : Code (Option Address) := do
  let s ← get
  match s.roomAccount.lookup account with
  | none => return none
  | some map =>
    wait (.seeking fd account map)
    let s ← get
    match s.rooms map, s.offLineTime map account with
    | some _, some offLinetime =>
      wait (.answered fd account offLinetime)
      let s ← get
      return if offLinetime < 90 then s.roomAgent account else none
    | _, _ => Coroutine.raise

/-- A new connection sends a login that is accepted. -/
def auth (account : Account) : Code Unit := do
  let s ← get
  let fd := s.nextFd
  modify Game.connect
  wait (.asked fd account)
  let agent ← getAgent fd account
  match agent with
  | some a => enterAgain fd a
  | none => enterNew (some fd) account

def authAi (name : Account) : Code Unit := enterNew none name

/-- A socket is closed, by the client or by the gate. -/
def socketClosed (fd : Fd) : Code Unit := do
  let s ← get
  Coroutine.when (s.atGate fd = true ∧ s.connected fd = false) do
    modify (Game.disconnected · fd)
    wait (.closing fd)
    closeAgent fd none

def disconnect (a : Address) : Code Unit := do
  let s ← get
  Coroutine.when ((s.agents a).told = true ∧ (s.agents a).exited = false) do
    Coroutine.when ((s.agents a).started = true) (wait (.exiting a))
    modify (Game.exit · a)

/-- The loop of `userEnter`. -/
def closeOthers (account : Account) (fd origin : Fd) : List Fd → Code Unit
  | [] => pure ()
  | k :: rest => do
    let s ← get
    Coroutine.when (s.agentAccount.lookup k = some account)
      (closeAgent k (some ⟨account, fd, origin, rest⟩))
    closeOthers account fd origin rest

variable (order : Order)

def userEnter (account : Account) (fd origin : Fd) : Code Unit := do
  wait (.userEnter account fd origin)
  let s ← get
  modify Game.scan
  closeOthers account fd origin (order.fds s.scans s.agentAccount.keys)
  modify (Game.enter · account fd origin)

/-- `enterGame`, sent over the connection `fd`, up to the answer of the watchdog. -/
def enterGame (fd : Fd) : Code Unit := do
  let s ← get
  match s.connection fd with
  | some ⟨some a, true⟩ =>
    Coroutine.when (s.connected fd = true) do
      wait (.enterGame a fd)
      alive a
      let s ← get
      let user := s.agents a
      Coroutine.when (user.started = true ∧ user.isAi = false) do
        user.fd.forM fun userFd => userEnter order user.account userFd fd
  | _ => pure ()

/-- The loop of `roomstart`. -/
def seatAll (room : Room) : List Address → Code Unit
  | [] => pure ()
  | a :: rest => do
    modify (Game.setRoom · room a)
    wait (.seating room a rest)
    alive a
    modify (Game.sit · a)
    wait (.seated room rest)
    seatAll room rest

/-- A room starts, with players who have been matched. -/
def roomstart (players : List Address) : Code Unit := do
  let s ← get
  Coroutine.when (∀ a ∈ players, (s.agents a).started = true) do
    modify (Game.openRoom · players)
    wait (.roomstart s.nextRoom players)
    seatAll s.nextRoom players

/-- The loop of `roomend`. -/
def clearAll (room : Room) : List Account → Code Unit
  | [] => pure ()
  | k :: rest => do
    let s ← get
    Coroutine.when (s.roomAccount.lookup k = some room) do
      match s.roomAgent k with
      | none => Coroutine.raise
      | some a =>
        wait (.unseating room k a rest)
        alive a
        modify (Game.rise · k a)
        let s ← get
        let ref := (s.agents a).refConnect
        wait (.unseated room k a ref rest)
        let s ← get
        Coroutine.when (ref ≤ 0) do
          match s.roomAgent k with
          | none => Coroutine.raise
          | some a => modify (Game.tell · a)
        modify (Game.clearRoom · k)
    clearAll room rest

/-- A battle is over. -/
def roomend (room : Room) : Code Unit := do
  let s ← get
  Coroutine.when ((s.rooms room).isSome = true) do
    modify (Game.closeRoom · room)
    wait (.roomend room)
    let s ← get
    modify Game.scan
    clearAll room (order.accounts s.scans s.roomAccount.keys)

inductive Request
  | auth (account : Account)
  | authAi (name : Account)
  | enterGame (fd : Fd)
  | socketClosed (fd : Fd)
  /-- The client of the agent is silent for too long, or a message is wrong. -/
  | kickSelf (a : Address)
  | disconnect (a : Address)
  | roomstart (players : List Address)
  | roomend (room : Room)

/-- A client hangs up, or rooms see how long a player has been away. -/
inductive Outside
  | hangup (fd : Fd)
  | offLine (offLineTime : Room → Account → Option ℚ)

def Outside.run : Outside → Game → Game
  | .hangup fd, s => { s with connected := Function.update s.connected fd false }
  | .offLine offLineTime, s => { s with offLineTime := offLineTime }

def server : Server Game Place Request Outside where
  handle
    | .auth account => auth account
    | .authAi name => authAi name
    | .enterGame fd => enterGame order fd
    | .socketClosed fd => socketClosed fd
    | .kickSelf a => kickSelf a
    | .disconnect a => disconnect a
    | .roomstart players => roomstart players
    | .roomend room => roomend order room
  outside := Outside.run

/-- Nobody has connected. -/
def nobody : Game where
  agentfd _ := none
  agentAccount := ∅
  connection _ := none
  connected _ := false
  atGate _ := false
  agents _ := ⟨"", false, none, none, 0, false, false, false⟩
  roomAccount := ∅
  roomAgent _ := none
  rooms _ := none
  offLineTime _ _ := some 0
  nextFd := 0
  nextAgent := 0
  nextRoom := 0
  scans := 0
  counted _ := none
  held _ := false
  seat _ := none
  entered := []

end GameServer.Watchdog
