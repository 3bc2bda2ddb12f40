import GameServer.Agent
import GameServer.Cooperative

/-!
# The choice of heroes before a battle

Players pick and confirm heroes while an update, once a second, chooses for those without a pick:
the robots at any time, everybody when the time is over. `pickHero` compares tens of ids,
`confirmHero` card series. An agent reads the skills of its cards when it handles `isBindSkills`,
the answer arrives later. `log` keeps what conditions speak about: picks that are accepted, picks
taken over at the timeout, what the confirms at the timeout find, and cards that change.
-/

namespace GameServer.PickHero

open Agent Cooperative Coroutine Transition

structure Player where
  isAI : Bool
  pickedheroid : ℤ
  confirmheroid : ℤ

/-- Who runs: the handler of a request, the update that chooses for robots, or the last update,
which still has to settle the players of the list. -/
inductive Turn (n : ℕ)
  | request
  | robots
  | last (todo : List (Fin n))
  deriving DecidableEq

/-- The player is settled. -/
def Turn.without {n : ℕ} (p : Fin n) : Turn n → Turn n
  | .last todo => .last (todo.filter (· ≠ p))
  | turn => turn

def getCardByDataId (cards : List Card) (dataId : ℤ) : Option Card :=
  cards.find? fun v => v.dataId = dataId

def isBindSkills (cards : List Card) (heroId : ℤ) : Bool :=
  match getCardByDataId cards heroId with
  | none => false
  | some v => (List.range 8).all fun i => v.skills[i]? ≠ some 0

/-- History. `players` are as they were before. -/
inductive Event (n : ℕ)
  | pick (p : Fin n) (heroid : ℤ) (players : Fin n → Player) (confirming : ℕ)
  | assign (p : Fin n) (player : Player) (bound : Bool) (byAi : Option ℤ)
  | ask (confirmid : ℤ)
  | check (p : Fin n) (confirmid : ℤ) (bind : Bool) (players : Fin n → Player)
  | rebind (player : Player) (confirming : ℕ) (before after : List Card)

structure Picking (n : ℕ) where
  players : Fin n → Player
  maxPickTime : ℤ
  /-- Whether a timeout of `update` is set. -/
  scheduled : Bool
  /-- The cards of the agents. -/
  cards : Fin n → List Card
  /-- The random numbers, and how many were used. -/
  random : ℕ → ℕ
  drawn : ℕ
  /-- History: how many confirms of the player wait for `isBindSkills`. -/
  confirming : Fin n → ℕ
  /-- History: the hero that `aiPickHero` gave, until the player picks another. -/
  byAi : Fin n → Option ℤ
  log : List (Event n)
  /-- History: what the room was started with. -/
  started : Option ((Fin n → Player) × (Fin n → List Card) × (Fin n → Option ℤ))

inductive Wait (n : ℕ)
  /-- `isBindSkills` is on its way, or the answer. -/
  | asked (p : Fin n) (confirmid : ℤ)
  | answered (p : Fin n) (confirmid : ℤ) (bind : Bool)
  /-- A player is told. -/
  | told
  /-- The room service is made. -/
  | opening
  deriving DecidableEq

structure Place (n : ℕ) where
  wait : Wait n
  turn : Turn n
  deriving DecidableEq

variable {n : ℕ}

abbrev Code (n : ℕ) (α : Type) := Coroutine (Picking n) (Place n) α

namespace Picking

variable (s : Picking n)

def note (e : Event n) : Picking n := { s with log := s.log ++ [e] }

/-- The confirms at the timeout are noted, others are not. -/
def noteLast (turn : Turn n) (e : Event n) : Picking n :=
  match turn with
  | .last _ => s.note e
  | _ => s

def setPlayer (p : Fin n) (v : Player) : Picking n :=
  { s with players := Function.update s.players p v }

/-- `players[agent].pickedheroid = arg.heroid` -/
def accept (p : Fin n) (heroid : ℤ) (turn : Turn n) : Picking n :=
  { (s.note (.pick p heroid s.players (s.confirming p))).setPlayer p
      { s.players p with pickedheroid := heroid } with
    byAi := Function.update s.byAi p (if turn = .request then none else some heroid) }

/-- `players[agent].confirmheroid = confirmid` -/
def confirm (p : Fin n) (confirmid : ℤ) : Picking n :=
  s.setPlayer p { s.players p with confirmheroid := confirmid }

def wait (p : Fin n) : Picking n :=
  { s with confirming := Function.update s.confirming p (s.confirming p + 1) }

def wake (p : Fin n) : Picking n :=
  { s with confirming := Function.update s.confirming p (s.confirming p - 1) }

def ready : Picking n :=
  if ∀ p, (s.players p).confirmheroid ≠ 0 then { s with maxPickTime := -1 } else s

/-- `_v.confirmheroid = _v.pickedheroid` -/
def assign (p : Fin n) : Picking n :=
  let v := s.players p
  (s.note (.assign p v (isBindSkills (s.cards p) v.pickedheroid) (s.byAi p))).confirm p
    v.pickedheroid

def start : Picking n := { s with started := some (s.players, s.cards, s.byAi) }

end Picking

/-! ## Handlers -/

def sendAll (turn : Turn n) : Code n Unit :=
  (List.finRange n).forM fun _ => Coroutine.call ⟨.told, turn⟩

def pickHero (p : Fin n) (heroid : ℤ) (turn : Turn n) : Code n Unit := do
  let s ← get
  Coroutine.when (∀ q, Int.fdiv heroid 10 ≠ Int.fdiv (s.players q).pickedheroid 10) do
    modify (Picking.accept · p heroid turn)
    sendAll turn

/-- The part of `confirmHero` behind the answer of the agent. -/
def confirmBound (p : Fin n) (confirmid : ℤ) (bind : Bool) (turn : Turn n) : Code n Unit := do
  modify (Picking.wake · p)
  modify fun s => s.noteLast turn (.check p confirmid bind s.players)
  let s ← get
  Coroutine.when (bind = true ∧ ∀ q, q ≠ p →
      Macro_GetCardSerialId confirmid ≠ Macro_GetCardSerialId (s.players q).pickedheroid) do
    modify (Picking.confirm · p confirmid)
    sendAll (turn.without p)

def confirmHero (p : Fin n) (turn : Turn n) : Code n Unit := do
  let s ← get
  let confirmid := (s.players p).pickedheroid
  modify (Picking.noteLast · turn (.ask confirmid))
  Coroutine.when (confirmid ≠ 0) do
    modify (Picking.wait · p)
    Coroutine.call ⟨.asked p confirmid, turn⟩
    let s ← get
    let bind := isBindSkills (s.cards p) confirmid
    Coroutine.call ⟨.answered p confirmid bind, turn⟩
    confirmBound p confirmid bind turn
  modify Picking.ready

def roles : List ℤ := [110001, 110101, 120001, 120101, 130001, 130101, 210001, 210101, 220001]

/-- The roles that nobody has picked. -/
def lefts (s : Picking n) : List ℤ := roles.filter fun r => ∀ q, (s.players q).pickedheroid ≠ r

def aiPickHero (p : Fin n) (turn : Turn n) : Code n Unit := do
  let s ← get
  let left := lefts s
  match left[s.random s.drawn % left.length]? with
  | none => Coroutine.raise
  | some heroid =>
    modify fun s => { s with drawn := s.drawn + 1 }
    pickHero p heroid turn
    confirmHero p turn

def enterMap : Code n Unit := do
  Coroutine.call ⟨.opening, .last []⟩
  modify Picking.start

/-- The loop of the last update. -/
def settle : List (Fin n) → Code n Unit
  | [] => enterMap
  | p :: rest => do
    let s ← get
    let v := s.players p
    if v.confirmheroid = 0 ∧ v.pickedheroid = 0 then aiPickHero p (.last (p :: rest))
    else Coroutine.when (v.confirmheroid = 0) (modify (Picking.assign · p))
    settle rest

def update : Code n Unit := do
  let s ← get
  Coroutine.when (s.scheduled = true) do
    modify fun s => { s with scheduled := false }
    if s.maxPickTime < 0 then settle (List.finRange n)
    else
      (List.finRange n).forM fun p => do
        let s ← get
        Coroutine.when ((s.players p).isAI = true ∧ (s.players p).pickedheroid = 0) do
          aiPickHero p .robots
      modify fun s => { s with maxPickTime := s.maxPickTime - 100, scheduled := true }

inductive Request (n : ℕ)
  | pickHero (p : Fin n) (heroid : ℤ)
  | confirmHero (p : Fin n)
  | update

/-- The cards of a player change: it gets one, or binds skills or takes them off. -/
structure Rebind (n : ℕ) where
  p : Fin n
  cards : List Card

def Rebind.run (e : Rebind n) (s : Picking n) : Picking n :=
  { s.note (.rebind (s.players e.p) (s.confirming e.p) (s.cards e.p) e.cards) with
    cards := Function.update s.cards e.p e.cards }

def server (n : ℕ) : Server (Picking n) (Place n) (Request n) (Rebind n) where
  handle
    | .pickHero p heroid => pickHero p heroid .request
    | .confirmHero p => confirmHero p .request
    | .update => update
  outside := Rebind.run

/-- Nobody has picked. -/
def picking (isAI : Fin n → Bool) (cards : Fin n → List Card) (random : ℕ → ℕ) : Picking n where
  players p := ⟨isAI p, 0, 0⟩
  maxPickTime := 3000
  scheduled := true
  cards := cards
  random := random
  drawn := 0
  confirming _ := 0
  byAi _ := none
  log := []
  started := none

end GameServer.PickHero
