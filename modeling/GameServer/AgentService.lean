import GameServer.Agent
import GameServer.Cooperative

/-!
# The agent as a server

The methods of the agent as coroutines. They give up control where the source calls the database or
another service; the calls answer. `op` is the place where the caller waits. Two calls with nothing
between them count as one.

`ledger`, `resets`, `completed` and `history` are history: what was taken off the balances, how
often the daily quotas were reset, which steps of missions were completed, and what a server
records.
-/

namespace GameServer.AgentService

open Goods Agent Cooperative

/-! ## Static data -/

structure HeroDat extends HeroRow where
  n32Color : ℤ
  n32MainAtt : ℤ
  n32WCardNum : ℕ
  n32GoldNum : ℕ

/-- `Quest.ChipsExp` has an entry for each quality. -/
structure SkillDat extends SkillRow where
  n32NeedStuff : ℕ
  n32Quality : ℤ
  n32Upgrade : ℤ
  quality : n32Quality = 0 ∨ n32Quality = 1 ∨ n32Quality = 2

structure MissionRow where
  n32Type : ℤ
  n32Content : ℤ
  n32GoalCon : ℤ
  n32Goal : ℤ
  n32Con1 : ℤ
  /-- The two numbers of the text. -/
  szAwards : ℤ × ℤ

/-- `g_shareData`. The rows of a repository carry their key as `id`. -/
structure GameData extends ShareData where
  heroDat : ℤ → Option HeroDat
  skillDat : ℤ → Option SkillDat
  missionRepository : ℤ → Option MissionRow
  hero_row : ∀ id, heroRepository id = (heroDat id).map HeroDat.toHeroRow
  skill_row : ∀ id, skillRepository id = (skillDat id).map SkillDat.toSkillRow

/-- What does not change while the server runs. -/
structure World extends GameData where
  rand : ℕ → ℕ
  uuid : ℕ → String
  pairs : IntTable → IntTable
  pairs_perm : ∀ t, (pairs t).Perm t

structure Clock where
  now : ℤ
  tomorrow : ℤ
  refreshShopCard : ℤ
  deriving DecidableEq

def World.env (w : World) (c : Clock) : Env where
  data := w.toShareData
  now := c.now
  tomorrow := c.tomorrow
  refreshShopCard := c.refreshShopCard
  rand := w.rand
  uuid := w.uuid
  pairs := w.pairs
  pairs_perm := w.pairs_perm

/-! ## The state -/

/-- A mission of the player, whose row exists. -/
structure Mission (w : World) where
  dataId : ℤ
  progress : ℤ
  flag : ℤ
  time : ℤ
  row : (w.missionRepository dataId).isSome

structure Mail where
  uuid : String
  items : String
  flag : BitVec 64
  deriving DecidableEq

/-- `att`, `cam` and `uuid` of one of the three slots. -/
structure Slot where
  att : ℤ
  cam : ℤ
  uuid : String
  deriving DecidableEq

structure Explore where
  dataId : ℤ
  slots : Fin 3 → Slot
  time : ℤ

inductive Currency
  | gold | money
  deriving DecidableEq

/-- What a change of a balance took off it. -/
structure Debit (τ : Type) where
  op : τ
  currency : Currency
  amount : ℤ
  deriving DecidableEq

structure Session (w : World) (τ η : Type) where
  user : User
  clock : Clock
  /-- The missions by their serial ids, in the order in which `pairs` visits them. -/
  missions : List (ℤ × Mission w)
  mails : String → Option Mail
  explores : String → Option Explore
  ledger : List (Debit τ)
  resets : ℕ
  /-- The series and the row of each step found completed; for a daily award the end of its day. -/
  completed : List (ℤ × ℤ)
  history : η

abbrev Code (w : World) (τ η α : Type) := Coroutine (Session w τ η) τ α

variable {w : World} {τ η : Type}

def Session.env (s : Session w τ η) : Env := w.env s.clock

/-- Changes the account and notes what left the balances. -/
def Session.setAccount (s : Session w τ η) (op : τ) (currency : Currency) (account : Account) :
    Session w τ η :=
  let amount : ℤ := match currency with
    | .gold => s.user.account.gold - account.gold
    | .money => s.user.account.money - account.money
  { s with
    user := { s.user with account }
    ledger := s.ledger ++ [{ op, currency, amount }] }

/-- Runs a computation on the data of the user, without giving up control. -/
def act {α : Type} (a : Env → Act α) : Code w τ η α := do
  let s ← get
  match a s.env s.user with
  | none => .raise
  | some (x, user) =>
      set { s with user }
      return x

variable (op : τ)

/-! ## The account -/

namespace Account

def addGold (gold : ℤ) : Code w τ η Unit := do
  if gold = 0 then return
  modify fun s => s.setAccount op .gold (s.user.account.addGold gold)
  Coroutine.call op

def addMoney (money : ℤ) : Code w τ η Unit := do
  if money = 0 then return
  modify fun s => s.setAccount op .money (s.user.account.addMoney money)
  Coroutine.call op

/-- The experience is not part of the state; only the call is left. -/
def addAExp (exp : ℤ) : Code w τ η Unit := do
  if exp = 0 then return
  Coroutine.call op

def refreshTimes : Code w τ η Unit := do
  let s ← get
  Coroutine.when (s.user.account.refreshtime < s.clock.now) do
    set { s with
      user := { s.user with account := s.user.account.refreshTimes s.env }
      resets := s.resets + 1 }
    Coroutine.call op

def haveExploreTimes : Code w τ η Bool := do
  refreshTimes op
  let s ← get
  return decide (s.user.account.exploretimes > 0 ∨ s.user.account.exploretimes = -1)

/-- It may wait twice, in `refreshTimes` at `again`. -/
def addExploreTimes (again : τ) (time : ℤ) : Code w τ η Unit := do
  if time = 0 then return
  refreshTimes again
  modify fun s => { s with user := { s.user with account := { s.user.account with
    exploretimes := wrap (s.user.account.exploretimes + time) } } }
  Coroutine.call op

def haveBuyBoxTimes (time : ℤ) : Code w τ η Bool := do
  refreshTimes op
  let s ← get
  return decide (s.user.account.buyboxtimes ≥ time ∨ s.user.account.buyboxtimes = -1)

def addBuyBoxTimes (again : τ) (time : ℤ) : Code w τ η Unit := do
  if time = 0 then return
  refreshTimes again
  modify fun s => { s with user := { s.user with account := { s.user.account with
    buyboxtimes := wrap (s.user.account.buyboxtimes + time) } } }
  Coroutine.call op

end Account

/-! ## Missions -/

/-- `Quest.MissionContent` with the arguments of `AdvanceMission`. -/
inductive MissionContent
  | WinFight
  | GetCard
  | GetSkill
  | UpgradeSkill (dataId : ℤ)
  | WinWithHero (dataId : ℤ)
  | Kills (num : ℤ)
  | Deads (num : ℤ)
  deriving DecidableEq

def MissionContent.toInt : MissionContent → ℤ
  | .WinFight => 1001
  | .GetCard => 1002
  | .GetSkill => 1003
  | .UpgradeSkill _ => 1004
  | .WinWithHero _ => 1005
  | .Kills _ => 1006
  | .Deads _ => 1007

def Macro_GetSkillGrade (id : ℤ) : ℤ := Int.fdiv (Int.fmod id 1000) 10

def Macro_AddSkillGrade (id grade : ℤ) : ℤ := wrap (id + wrap (grade * 10))

def Macro_GetMissionSerialId (id : ℤ) : ℤ := Int.fdiv id 1000

namespace Missions

def getMission (missions : List (ℤ × Mission w)) (serId : ℤ) : Option (Mission w) :=
  (missions.find? fun e => e.1 = serId).map Prod.snd

def setMission (missions : List (ℤ × Mission w)) (serId : ℤ) (v : Mission w) :
    List (ℤ × Mission w) :=
  missions.map fun e => if e.1 = serId then (serId, v) else e

def isMissionCompleted (dat : MissionRow) (v : Mission w) : Bool :=
  if dat.n32GoalCon ≠ 0 then
    (bit_and_ne_zero 1 dat.n32GoalCon && decide (v.progress > dat.n32Goal)) ||
      (bit_and_ne_zero 2 dat.n32GoalCon && decide (v.progress = dat.n32Goal)) ||
      (bit_and_ne_zero 4 dat.n32GoalCon && decide (v.progress < dat.n32Goal))
  else decide (v.progress = dat.n32Goal)

/-- `Advance_1001` to `Advance_1007`: whether the mission changed, and the mission. -/
def advance (user : User) (dat : MissionRow) (v : Mission w) :
    MissionContent → Option (Bool × Mission w)
  | .WinFight => some (true, { v with progress := wrap (v.progress + 1) })
  | .GetCard =>
      let cnt := user.cards.countP fun c => dat.n32Con1 ≤ Macro_GetCardColor c.dataId
      some (decide (v.progress ≠ cnt), { v with progress := cnt })
  | .GetSkill =>
      let cnt := user.skills.countP fun c => dat.n32Con1 ≤ Macro_GetSkillGrade c.dataId
      some (decide (v.progress ≠ cnt), { v with progress := cnt })
  | .UpgradeSkill dataId =>
      match w.skillDat dataId with
      | none => none
      | some skill =>
          if skill.n32Quality = dat.n32Con1 ∧ skill.n32Upgrade ≥ dat.n32Goal then
            some (true, { v with progress := dat.n32Goal })
          else some (false, v)
  | .WinWithHero dataId =>
      if Macro_GetCardSerialId dataId = dat.n32Con1 then
        some (true, { v with progress := wrap (v.progress + 1) })
      else some (false, v)
  | .Kills num | .Deads num =>
      if num > 0 then some (true, { v with progress := wrap (v.progress + num) })
      else some (false, v)

/-- The row of a mission. -/
def rowOf (v : Mission w) : MissionRow := (w.missionRepository v.dataId).get v.row

/-- An achievement that is completed goes on to the next row, if there is one. -/
def next (v : Mission w) : Mission w :=
  if (rowOf v).n32Type = 1 ∧ isMissionCompleted (rowOf v) v then
    if h : (w.missionRepository (v.dataId + 1)).isSome then
      { v with dataId := v.dataId + 1, row := h }
    else v
  else v

/-- Behind the changes of its caller, the mission as it is now goes to `next`. -/
def updateMission (serId : ℤ) : Code w τ η Unit := do
  modify fun s => match getMission s.missions serId with
    | some v => { s with
        missions := setMission s.missions serId (next v)
        completed :=
          s.completed ++ if isMissionCompleted (rowOf v) v then [(serId, v.dataId)] else [] }
    | none => s
  Coroutine.call op

/-- One round of the loop of `AdvanceMission`. -/
def advanceOne (content : MissionContent) (serId : ℤ) : Code w τ η Unit := do
  let s ← get
  match getMission s.missions serId with
  | none => return
  | some v =>
      if (rowOf v).n32Content = content.toInt then
        match advance s.user (rowOf v) v content with
        | none => .raise
        | some (ret, v) =>
            set { s with missions := setMission s.missions serId v }
            Coroutine.when (ret = true) (updateMission op serId)

def AdvanceMission (content : MissionContent) : Code w τ η Unit := do
  let s ← get
  (s.missions.map Prod.fst).forM fun serId => advanceOne op content serId

end Missions

/-! ## Counters, cards, skills -/

namespace Activitys

def addValue (atype val : ℤ) (expire : Option ℤ) : Code w τ η Unit := do
  modify fun s => { s with user := { s.user with
    activitys := s.user.activitys.addValue s.env atype val expire } }
  Coroutine.call op

end Activitys

namespace Cards

def getCardByUuid (cards : List Card) (uuid : String) : Option Card :=
  cards.find? fun v => v.uuid = uuid

/-- A change of the card of an identifier, which is the key of the table. -/
def setCard (cards : List Card) (uuid : String) (f : Card → Card) : List Card :=
  cards.map fun v => if v.uuid = uuid then f v else v

def addCard (dataId num : ℤ) : Code w τ η Unit := do
  if num ≤ 0 then return
  act fun env => Agent.addCard env dataId num
  Coroutine.call op
  Missions.AdvanceMission op .GetCard

def delCardByUuid (uuid : String) (num : ℤ) : Code w τ η Unit := do
  let s ← get
  match getCardByUuid s.user.cards uuid with
  | none => return
  | some v =>
      if v.count < num then return
      set { s with user := { s.user with
        cards := setCard s.user.cards uuid fun v => { v with count := wrap (v.count - num) } } }
      Coroutine.call op
      -- `Quest.ChipsExp.Card * num`
      Account.addAExp op (wrap (10 * num))

def updateDataId (uuid : String) (dataId : ℤ) : Code w τ η Unit := do
  let s ← get
  match getCardByUuid s.user.cards uuid with
  | none => .raise
  | some _ =>
      set { s with user := { s.user with
        cards := setCard s.user.cards uuid fun v => { v with dataId } } }
      Coroutine.call op
      Missions.AdvanceMission op .GetCard

def setExplore (uuid : String) (time : ℤ) : Code w τ η Unit := do
  let s ← get
  match getCardByUuid s.user.cards uuid with
  | none => return
  | some _ =>
      set { s with user := { s.user with
        cards := setCard s.user.cards uuid fun v => { v with explore := time } } }
      Coroutine.call op

end Cards

namespace Skills

def getSkillByUuid (skills : List Skill) (uuid : String) : Option Skill :=
  skills.find? fun v => v.uuid = uuid

def setSkill (skills : List Skill) (uuid : String) (f : Skill → Skill) : List Skill :=
  skills.map fun v => if v.uuid = uuid then f v else v

/-- `Quest.ChipsExp["Skill"..(n32Quality + 1)]` -/
def chipsExp (dat : SkillDat) : ℤ :=
  if dat.n32Quality = 0 then 2 else if dat.n32Quality = 1 then 10 else 50

def addSkill (dataId num : ℤ) : Code w τ η Unit := do
  if num ≤ 0 then return
  act fun env => Agent.addSkill env dataId num
  Coroutine.call op
  Missions.AdvanceMission op .GetSkill
  Missions.AdvanceMission op (.UpgradeSkill dataId)

def delSkillByUuid (uuid : String) (num : ℤ) : Code w τ η Unit := do
  let s ← get
  match getSkillByUuid s.user.skills uuid with
  | none => return
  | some v =>
      if v.count < num then return
      set { s with user := { s.user with
        skills := setSkill s.user.skills uuid fun v => { v with count := wrap (v.count - num) } } }
      Coroutine.call op
      let s ← get
      -- `v` is a reference, so this is its `dataId` behind the call
      match (getSkillByUuid s.user.skills uuid).bind fun v => w.skillDat v.dataId with
      | none => .raise
      | some dat => Account.addAExp op (wrap (chipsExp dat * num))

def updateDataId (uuid : String) (dataId : ℤ) : Code w τ η Unit := do
  let s ← get
  match getSkillByUuid s.user.skills uuid with
  | none => .raise
  | some _ =>
      set { s with user := { s.user with
        skills := setSkill s.user.skills uuid fun v => { v with dataId } } }
      Coroutine.call op
      Missions.AdvanceMission op .GetSkill
      Missions.AdvanceMission op (.UpgradeSkill dataId)

end Skills

/-! ## `CMD.addItems` -/

/-- The loop over the items; `none` when it was left by the `return` for an unknown item. -/
def gather (again : IntTable → Code w τ η Unit) :
    IntTable → Gathered → Code w τ η (Option Gathered)
  | [], g => return some g
  | (k, v) :: rest, g => do
      match w.itemRepository k with
      | none => return none
      | some item =>
          if item.n32Type = 3 then
            gather again rest { g with cards := g.cards.add item.n32Retain1 v }
          else if item.n32Type = 4 then
            let rets ← act fun env => do draw (usePackageItem env k (← get).level)
            again rets
            gather again rest { g with rets }
          else if item.n32Type = 5 then gather again rest { g with gold := wrap (g.gold + v) }
          else if item.n32Type = 6 then gather again rest { g with money := wrap (g.money + v) }
          else if item.n32Type = 7 then
            gather again rest { g with skillMats := g.skillMats.add item.n32Retain1 v }
          else gather again rest g

/-- What was gathered is handed out. -/
def handOut (g : Gathered) : Code w τ η Unit := do
  Coroutine.when (g.gold > 0) (Account.addGold op g.gold)
  Coroutine.when (g.money > 0) (Account.addMoney op g.money)
  (w.pairs g.cards).forM fun (k, v) => Cards.addCard op k v
  (w.pairs g.skillMats).forM fun (k, v) => Skills.addSkill op k v

/-- `addItems` with as many levels of packages left as the code allows below `dep`; with none left
it only prints. The result is `rets`, or nothing. -/
def addItemsAt : ℕ → IntTable → Code w τ η (Option IntTable)
  | 0, _ => return none
  | levels + 1, items => do
      match ← gather (fun items => do discard (addItemsAt levels items)) (w.pairs items) {} with
      | none => return none
      | some g =>
          handOut op g
          return some g.rets

def addItems (items : IntTable) : Code w τ η (Option IntTable) := addItemsAt op 2 items

/-! ## An empty server and a new player -/

instance : Inhabited World where
  default := {
    shopRepository := fun _ => none
    itemRepository := fun _ => none
    dropPackage := fun _ => none
    itemDropPackage := fun _ => none
    heroRepository := fun _ => none
    skillRepository := fun _ => none
    autoGainSkills := []
    heroDat := fun _ => none
    skillDat := fun _ => none
    missionRepository := fun _ => none
    hero_row := fun _ => rfl
    skill_row := fun _ => rfl
    rand := fun _ => 0
    uuid := fun _ => ""
    pairs := id
    pairs_perm := id_perm }

theorem default_hero_row (id : ℤ) : (default : World).heroRepository id =
    ((default : World).heroDat id).map HeroDat.toHeroRow := rfl

theorem default_skill_row (id : ℤ) : (default : World).skillRepository id =
    ((default : World).skillDat id).map SkillDat.toSkillRow := rfl

instance : Inhabited User where
  default := {
    account := {
      gold := ⟨0, zero_balance⟩
      money := ⟨0, zero_balance⟩
      exploretimes := 20
      buyboxtimes := 20
      refreshtime := 86400 }
    cards := []
    skills := []
    activitys := fun _ => none
    cooldowns := fun _ => none
    level := 1 }

instance [Inhabited η] : Inhabited (Session w τ η) where
  default := {
    user := default
    clock := ⟨0, 86400, 86400⟩
    missions := []
    mails := fun _ => none
    explores := fun _ => none
    ledger := []
    resets := 0
    completed := []
    history := default }

end GameServer.AgentService
