import Mathlib.Tactic
import GameServer.Goods

/-!
# The agent of a player

The parts of the agent that purchases touch: the account with its two currencies and daily quotas,
the cards, the skills, the activity counters and the cooldowns, each with its methods, and
`CMD.addItems`, which hands out a table of items.
-/

namespace GameServer.Agent

open Goods

def maxint32 : ℤ := 0x7fffffff

/-- `math.maxinteger` -/
def maxinteger : ℤ := 2 ^ 63 - 1

def mClamp (a min max : ℤ) : ℤ := if a < min then min else if a > max then max else a

/-- An amount of gold or of diamonds. -/
abbrev Balance := {v : ℤ // 0 ≤ v ∧ v ≤ maxint32}

theorem mClamp_mem (a : ℤ) : 0 ≤ mClamp a 0 maxint32 ∧ mClamp a 0 maxint32 ≤ maxint32 := by
  unfold mClamp maxint32
  split_ifs <;> omega

theorem zero_balance : (0 : ℤ) ≤ 0 ∧ 0 ≤ maxint32 := by decide

theorem twenty_balance : (0 : ℤ) ≤ 20 ∧ 20 ≤ maxint32 := by decide

theorem hundred_balance : (0 : ℤ) ≤ 100 ∧ 100 ≤ maxint32 := by decide

structure Account where
  gold : Balance
  money : Balance
  exploretimes : ℤ
  buyboxtimes : ℤ
  refreshtime : ℤ
  deriving DecidableEq

namespace Account

def addGold (self : Account) (gold : ℤ) : Account :=
  if gold = 0 then self
  else { self with gold := ⟨mClamp (wrap (self.gold + gold)) 0 maxint32, mClamp_mem _⟩ }

def addMoney (self : Account) (money : ℤ) : Account :=
  if money = 0 then self
  else { self with money := ⟨mClamp (wrap (self.money + money)) 0 maxint32, mClamp_mem _⟩ }

def refreshTimes (env : Env) (self : Account) : Account :=
  if self.refreshtime < env.now then
    { self with exploretimes := 20, buyboxtimes := 20, refreshtime := env.tomorrow }
  else self

/-- The answer, and the account after the refresh that comes first. -/
def haveBuyBoxTimes (env : Env) (self : Account) (time : ℤ) : Account × Bool :=
  let self := self.refreshTimes env
  (self, decide (self.buyboxtimes ≥ time ∨ self.buyboxtimes = -1))

def addBuyBoxTimes (env : Env) (self : Account) (time : ℤ) : Account :=
  if time = 0 then self
  else
    let self := self.refreshTimes env
    { self with buyboxtimes := wrap (self.buyboxtimes + time) }

def haveExploreTimes (env : Env) (self : Account) : Account × Bool :=
  let self := self.refreshTimes env
  (self, decide (self.exploretimes > 0 ∨ self.exploretimes = -1))

def addExploreTimes (env : Env) (self : Account) (time : ℤ) : Account :=
  if time = 0 then self
  else
    let self := self.refreshTimes env
    { self with exploretimes := wrap (self.exploretimes + time) }

end Account

/-- A unit of the activity counters. -/
structure Activity where
  value : ℤ
  expire : ℤ
  deriving DecidableEq

/-- The counters of the account by their type; the unit's key is `account_id$atype`. -/
abbrev Activitys := ℤ → Option Activity

namespace Activitys

def getValue (env : Env) (self : Activitys) (atype : ℤ) : ℤ :=
  match self atype with
  | some unit => if unit.expire > env.now then unit.value else 0
  | none => 0

def addValue (env : Env) (self : Activitys) (atype val : ℤ) (expire : Option ℤ) : Activitys :=
  let expire := expire.getD maxinteger
  match self atype with
  | some unit =>
      let value := if unit.expire ≤ env.now then 0 else unit.value
      Function.update self atype (some { value := wrap (value + val), expire })
  | none => Function.update self atype (some { value := val, expire })

end Activitys

/-- The cooldowns of the account by their type, each with its end. -/
abbrev Cooldowns := ℤ → Option ℤ

namespace Cooldowns

def getValue (env : Env) (self : Cooldowns) (atype : ℤ) : ℤ :=
  match self atype with
  | some value => if value > env.now then value else 0
  | none => 0

def setTime (env : Env) (self : Cooldowns) (atype : ℤ) (time : Option ℤ) : Cooldowns :=
  match time with
  | none => self
  | some time =>
      if time < 1 then self
      else match self atype with
        | none => Function.update self atype (some (wrap (env.now + time)))
        | some value =>
            if value < wrap (env.now + time) then
              Function.update self atype (some (wrap (env.now + time)))
            else self

/-- The first argument is the name of the operation and is only printed. -/
def setValue (env : Env) (self : Cooldowns) (_op : ℤ) (atype : ℤ) (val : Option ℤ) : Cooldowns :=
  self.setTime env atype val

end Cooldowns

structure Card where
  uuid : String
  dataId : ℤ
  count : ℤ
  explore : ℤ := 0
  /-- `skill0` to `skill7` -/
  skills : List ℤ
  deriving DecidableEq

structure Skill where
  uuid : String
  dataId : ℤ
  count : ℤ
  flag : ℤ := 0
  deriving DecidableEq

/-- The agent's data, with the numbers of random draws and of identifiers used so far. -/
structure User where
  account : Account
  cards : List Card
  skills : List Skill
  activitys : Activitys
  cooldowns : Cooldowns
  level : ℤ
  drawn : ℕ := 0
  made : ℕ := 0

abbrev Act := StateT User Option

def fail {α : Type} : Act α := fun _ => none

/-- Runs a computation that draws. -/
def draw {α : Type} (d : Draw α) : Act α := fun user =>
  (d user.drawn).map (fun r => (r.1, { user with drawn := r.2 }))

def Macro_GetCardSerialId (id : ℤ) : ℤ := Int.fdiv id 100

def Macro_GetCardColor (id : ℤ) : ℤ := Int.fmod id 100

def Macro_GetSkillSerialId (id : ℤ) : ℤ := Int.fdiv id 1000

/-- `bit_and(a, b) ~= 0` on Lua integers. -/
def bit_and_ne_zero (a b : ℤ) : Bool := BitVec.ofInt 64 a &&& BitVec.ofInt 64 b ≠ 0

variable (env : Env)

/-- The serial ids of the skills that a new card gets by itself; an error when a row is missing. -/
def autoSkills (cardDat : Option HeroRow) : List ℤ → Option (List ℤ)
  | [] => some []
  | v :: rest => do
      let cardDat' ← cardDat
      let skillDat ← env.data.skillRepository v
      let gained ← autoSkills cardDat rest
      if bit_and_ne_zero cardDat'.n32Camp skillDat.n32Faction then
        some (Macro_GetSkillSerialId v :: gained)
      else some gained

def initCard (dataId : ℤ) : Act Card := fun user => do
  let gained ← autoSkills env (env.data.heroRepository dataId) env.data.autoGainSkills
  some ({ uuid := env.uuid user.made, dataId, count := 0,
          skills := gained ++ List.replicate (8 - gained.length) 0 },
        { user with made := user.made + 1 })

/-- The position of the card of a series. -/
def getCardBySerialId (cards : List Card) (serId : ℤ) : Option ℕ :=
  cards.findIdx? (fun v => Macro_GetCardSerialId v.dataId = serId)

def addCard (dataId num : ℤ) : Act Unit := do
  if num ≤ 0 then return
  let user ← get
  match getCardBySerialId user.cards (Macro_GetCardSerialId dataId) with
  | some i =>
      match env.data.heroRepository dataId with
      | none => fail
      | some hero =>
          set { user with cards := user.cards.modify i (fun v => { v with
            count := mClamp (wrap (v.count + hero.n32CCardNum * num)) 0 maxint32 }) }
  | none =>
      let v ← initCard env dataId
      match env.data.heroRepository dataId with
      | none => fail
      | some hero =>
          let n := if Macro_GetCardColor dataId = 0 then num else num - 1
          let v := { v with count := mClamp (wrap (n * hero.n32CCardNum)) 0 maxint32 }
          modify fun user => { user with cards := user.cards ++ [v] }

def getSkillBySerialId (skills : List Skill) (serId : ℤ) : Option ℕ :=
  skills.findIdx? (fun v => Macro_GetSkillSerialId v.dataId = serId)

def initSkill (made : ℕ) (dataId : ℤ) : Skill := { uuid := env.uuid made, dataId, count := 0 }

def addSkill (dataId num : ℤ) : Act Unit := do
  if num ≤ 0 then return
  let user ← get
  match getSkillBySerialId user.skills (Macro_GetSkillSerialId dataId) with
  | some i =>
      set { user with skills := user.skills.modify i (fun v => { v with
        count := mClamp (wrap (v.count + num)) 0 maxinteger }) }
  | none =>
      let v : Skill := { initSkill env user.made dataId with count := num }
      set { user with skills := user.skills ++ [v], made := user.made + 1 }

/-! ## `CMD.addItems` -/

/-- The locals of the loop over the items. -/
structure Gathered where
  gold : ℤ := 0
  money : ℤ := 0
  cards : IntTable := []
  skillMats : IntTable := []
  rets : IntTable := []

/-- The loop over the items; `none` when it was left by the `return` for an unknown item. -/
def gather (again : IntTable → Act Unit) : IntTable → Gathered → Act (Option Gathered)
  | [], g => return some g
  | (k, v) :: rest, g => do
      match env.data.itemRepository k with
      | none => return none
      | some item =>
          if item.n32Type = 3 then
            gather again rest { g with cards := g.cards.add item.n32Retain1 v }
          else if item.n32Type = 4 then
            let rets ← draw (usePackageItem env k (← get).level)
            again rets
            gather again rest { g with rets }
          else if item.n32Type = 5 then gather again rest { g with gold := wrap (g.gold + v) }
          else if item.n32Type = 6 then gather again rest { g with money := wrap (g.money + v) }
          else if item.n32Type = 7 then
            gather again rest { g with skillMats := g.skillMats.add item.n32Retain1 v }
          else gather again rest g

/-- What was gathered is handed out. -/
def handOut (g : Gathered) : Act Unit := do
  if g.gold > 0 then modify fun user => { user with account := user.account.addGold g.gold }
  if g.money > 0 then modify fun user => { user with account := user.account.addMoney g.money }
  (env.pairs g.cards).forM fun (k, v) => addCard env k v
  (env.pairs g.skillMats).forM fun (k, v) => addSkill env k v

/-- `addItems` with as many levels of packages left as the code allows below `dep`; with none left
it only prints. -/
def addItemsAt : ℕ → IntTable → Act Unit
  | 0, _ => return
  | levels + 1, items => do
      match ← gather env (addItemsAt levels) (env.pairs items) {} with
      | none => return
      | some g => handOut env g

/-- `CMD.addItems(op, items)`, where `dep` is 1 and may grow to 2. -/
def addItems (items : IntTable) : Act Unit := addItemsAt env 2 items

end GameServer.Agent
