import GameServer.AgentFrame

/-!
# The settlement of a battle

`calcRes` asks the agents and fills in `BattleGains` of each player; `giveBattleGains` of the agent
takes every field that is not nil as given, an empty table and a 0 too. The history of an agent is
the list of the methods of the account that `giveBattleGains` calls. A share of points is a number
that floats give, so it is an input. The loops of `calcRes` go over lists of players that have
nobody in common: what they write to one player stands together here.
-/

namespace GameServer.Settlement

open Goods Agent AgentService Cooperative

/-- `OverRes` from 1 to 3 -/
inductive OverRes
  | blueWins
  | redWins
  | draw
  deriving DecidableEq

/-- A row of `Quest.Arena`. -/
structure Arena where
  GoldReward : ℤ
  GoldRewardLimit : ℤ
  VictoryReward : ℤ
  VictoryRewardLimit : ℤ

/-- A field that is nil is `none`. -/
structure BattleGains where
  items : Option IntTable
  exp : Option ℤ
  gold : Option ℤ
  win : ℤ
  kills : ℤ
  deads : ℤ
  cardId : Option ℤ
  deriving DecidableEq

/-- A method of the account with its arguments. -/
inductive Call
  | addExp (exp : ℤ)
  | addValue (atype : ℤ)
  | addGold (gold : ℤ)
  | addItems (items : IntTable)
  | AdvanceMission (content : MissionContent)
  deriving DecidableEq

def PvpTimes : ℤ := 2001

def PvpWinTimes : ℤ := 2002

variable {w : World}

/-! ## The agent -/

abbrev Gives (w : World) (α : Type) := Code w Unit (List Call) α

def note (c : Call) : Gives w Unit := modify fun s => { s with history := s.history ++ [c] }

def addValue (atype : ℤ) : Gives w Unit := do
  note (.addValue atype)
  let s ← get
  Activitys.addValue () atype 1 (some s.clock.tomorrow)

def advance (content : MissionContent) : Gives w Unit := do
  note (.AdvanceMission content)
  Missions.AdvanceMission () content

/-- `cardId` is not nil where `win` is 0. -/
def giveBattleGains (args : BattleGains) : Gives w Unit := do
  args.exp.forM fun exp => do
    note (.addExp exp)
    Coroutine.when (exp ≠ 0) (Coroutine.call ())
  args.gold.forM fun gold => do
    addValue PvpTimes
    note (.addGold gold)
    Account.addGold () gold
  args.items.forM fun items => do
    note (.addItems items)
    discard (addItems () items)
    addValue PvpWinTimes
  Coroutine.when (args.win = 0) do
    advance .WinFight
    args.cardId.forM fun cardId => advance (.WinWithHero cardId)
  Coroutine.when (args.win ≠ 3) do
    advance (.Kills args.kills)
    advance (.Deads args.deads)

/-- An agent with the field that the heartbeat sets. -/
structure AgentUser (w : World) where
  isOnLine : Bool
  session : Session w Unit (List Call)

/-- `user.isOnline`, a field that nothing sets. -/
def CMD.isOnLine (_ : AgentUser w) : Option Bool := none

def CMD.getActivityValue (user : AgentUser w) (atype : ℤ) : ℤ :=
  user.session.user.activitys.getValue user.session.env atype

/-! ## The room -/

/-- A player at the end of the battle. `arena` is the row of its `accountLevel`; a player whose
agent has disconnected has none. -/
structure Player (w : World) where
  isRed : Bool
  OffLineTime : ℚ
  kills : ℤ
  deads : ℤ
  accountLevel : ℤ
  accountExp : ℤ
  heroId : ℤ
  arena : Arena
  agent : Option (AgentUser w)

/-- The player is of the camp that wins. -/
def Player.wins (v : Player w) : OverRes → Bool
  | .blueWins => !v.isRed
  | .redWins => v.isRed
  | .draw => false

def Player.loses (v : Player w) : OverRes → Bool
  | .blueWins => v.isRed
  | .redWins => !v.isRed
  | .draw => false

/-- Whether `calcRes` counts the player among those who ran away. -/
def runsAway (v : Player w) : Option Bool :=
  if 90 < v.OffLineTime then some true
  else if 15 < v.OffLineTime then v.agent.map fun agent => decide (CMD.isOnLine agent ≠ some true)
  else some false

def score (players : List (Player w)) (isRed : Bool) : ℤ :=
  ((players.filter (·.isRed = isRed)).map (·.accountExp)).sum

/-- `1 / (1 + 10 ^ ((other - own) / S))` is `star own other`. -/
def winExp (star : ℤ → ℤ → ℚ) (own other : ℤ) : ℤ := ⌈2 * 32 * 1 * (1 - star own other)⌉

def failExp (star : ℤ → ℤ → ℚ) (own other : ℤ) : ℤ := ⌈2 * 32 * 1 * -star own other⌉

/-- The value of an agent's counter; an error where there is no agent. -/
def askValue (v : Player w) (atype : ℤ) : Draw ℤ :=
  match v.agent with
  | none => raise
  | some agent => pure (CMD.getActivityValue agent atype)

/-- `BattleGains` of a player with these items and this gold. -/
def Player.gains (v : Player w) (overRes : OverRes) (star : ℤ → ℤ → ℚ) (scores : Bool → ℤ)
    (runaway : Bool) (items : IntTable) (gold : ℤ) : BattleGains where
  items := some items
  exp := some (
    if runaway = false ∧ v.wins overRes = true then winExp star (scores v.isRed) (scores !v.isRed)
    else if v.loses overRes = true then failExp star (scores v.isRed) (scores !v.isRed)
    else 0)
  gold := some gold
  win :=
    if runaway = true then 3
    else if v.wins overRes = true then 0
    else if v.loses overRes = true then 1
    else 2
  kills := v.kills
  deads := v.deads
  cardId :=
    if (runaway = false ∧ v.wins overRes = true) ∨ v.loses overRes = true then some v.heroId
    else none

/-- The victory reward of a winner, below its limit. -/
def victoryItems (overRes : OverRes) (env : Env) (v : Player w) : Draw IntTable :=
  if v.wins overRes = true then do
    let val ← askValue v PvpWinTimes
    if val < v.arena.VictoryRewardLimit then usePackageItem env v.arena.VictoryReward v.accountLevel
    else return []
  else return []

def goldReward (v : Player w) : Draw ℤ := do
  let val ← askValue v PvpTimes
  return if val < v.arena.GoldRewardLimit then v.arena.GoldReward else 0

/-- What `calcRes` leaves in `BattleGains` of a player. -/
def gainsOf (overRes : OverRes) (star : ℤ → ℤ → ℚ) (scores : Bool → ℤ) (env : Env)
    (v : Player w) : Draw BattleGains := do
  match runsAway v with
  | none => raise
  | some true => return v.gains overRes star scores true [] 0
  | some false =>
    let items ← victoryItems overRes env v
    let gold ← goldReward v
    return v.gains overRes star scores false items gold

def calcRes (overRes : OverRes) (star : ℤ → ℤ → ℚ) (env : Env) (players : List (Player w)) :
    Draw (List BattleGains) :=
  players.mapM (gainsOf overRes star (score players) env)

/-- `skynet.call(v.agent, "lua", "giveBattleGains", v.BattleGains)` -/
def give (v : Player w) (gains : BattleGains) : Option (Session w Unit (List Call)) := do
  let agent ← v.agent
  let (_, session) ← (giveBattleGains gains).finish agent.session
  return session

/-- `calcRes` and `giveResult`: the gains of the players, and what their agents have then. -/
def settle (overRes : OverRes) (star : ℤ → ℤ → ℚ) (env : Env) (players : List (Player w))
    (drawn : ℕ) :
    Option (List (BattleGains × Session w Unit (List Call))) := do
  let (gains, _) ← calcRes overRes star env players drawn
  (players.zip gains).mapM fun (v, gains) => do
    return (gains, ← give v gains)

end GameServer.Settlement
