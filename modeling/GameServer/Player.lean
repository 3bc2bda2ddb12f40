import GameServer.AgentFrame
import GameServer.Shop

/-!
# Purchases and explorations as requests

`buyShopItem`, `exploreBegin`, `exploreEnd`, `exploreRefresh` and the reset of the daily quotas. A
place of a request says how far it got, and with which values.
-/

namespace GameServer.Player

open Goods Agent Cooperative Coroutine AgentService Shop

/-! ## Static data -/

structure ExploreRow where
  n32Color : ℤ
  n32CardItemId : ℤ
  n32SkillItemId : ℤ
  n32Time : ℤ
  n32RandC1 : ℤ
  n32RandC2 : ℤ
  time_range : 0 ≤ n32Time ∧ n32Time ≤ maxint32

/-- What `exploreEnd` makes of a score: how many packages of each kind, and how much gold. -/
structure Gains where
  cn : ℕ
  sn : ℕ
  gold : ℤ

structure ExploreData where
  /-- `exploreRepository` in the order in which `pairs` visits it. -/
  exploreRepository : List (ℤ × ExploreRow)
  /-- The formulas in floating point: what a row makes of a score. -/
  gains : ℤ → ℤ → Gains
  RefreshExploreTimes : ℕ
  RefreshExploreCost : ℤ
  times_range : RefreshExploreTimes ≤ maxint32
  cost_range : 0 < RefreshExploreCost ∧ RefreshExploreCost ≤ maxint32

def ExploreData.row (q : ExploreData) (dataId : ℤ) : Option ExploreRow :=
  (q.exploreRepository.find? fun e => e.1 = dataId).map Prod.snd

/-- `ActivityAccountType.RefreshExplore` -/
def RefreshExplore : ℤ := 3001

/-! ## Places and history -/

deriving instance DecidableEq for ShopRow

/-- A purchase with the counter as it was read. -/
structure Purchase where
  shopDat : ShopRow
  num : ℤ
  atype : ℤ
  hasBuy : ℤ
  deriving DecidableEq

def Purchase.cost (p : Purchase) : ℤ := costPrice p.shopDat p.hasBuy p.num

structure BeginArgs where
  uuid : String
  /-- `uuid0` to `uuid2` -/
  uuids : Fin 3 → String
  deriving DecidableEq

inductive BuyPhase
  | quota | pay | goods | count | again | spent
  deriving DecidableEq

inductive RefreshPhase
  | quota | again | times | pay | count | reset
  deriving DecidableEq

/-- Where a request waits. The flag of `refresh` says that it is not free. -/
inductive Place
  | cddown (id num : ℤ)
  | buy (phase : BuyPhase) (p : Purchase)
  | setExplore (args : BeginArgs)
  | beginExplore (args : BeginArgs)
  | reward (uuid : String)
  | resetExplore (uuid : String)
  | refresh (phase : RefreshPhase) (uuid : String) (paid : Bool)
  | times
  deriving DecidableEq

/-- One thing that `exploreEnd` did, with the end of the exploration that was under way. -/
structure Ended where
  uuid : String
  due : Option ℤ
  now : ℤ

/-- What `exploreBegin` found. -/
structure Found where
  cards : List Card
  explores : String → Option Explore
  now : ℤ

/-- A purchase with what it took off the balances. -/
structure Sale where
  purchase : Purchase
  paid : ℤ

structure History where
  /-- When the exploration ends that was begun since the last reset. -/
  due : String → Option ℤ
  ended : List Ended
  found : String → Option Found
  /-- The purchases counted since the counter was last at zero. -/
  sales : ℤ → List Sale
  /-- The free refreshes counted since the counter was last at zero. -/
  free : ℕ
  /-- The replies to refreshes that were not free. -/
  paid : ℕ

instance : Inhabited History where
  default := {
    due := fun _ => none
    ended := []
    found := fun _ => none
    sales := fun _ => []
    free := 0
    paid := 0 }

variable {w : World}

abbrev State (w : World) := Session w Place History

abbrev Step (w : World) (α : Type) := Code w Place History α

def note (f : State w → History) : Step w Unit := modify fun s => { s with history := f s }

/-- The value of a counter. -/
def counted (s : State w) (atype : ℤ) : ℤ := s.user.activitys.getValue s.env atype

/-! ## `REQUEST.buyShopItem` -/

/-- The purchase is about to be added to its counter. -/
def sold (p : Purchase) (paid : ℤ) : Step w Unit := note fun s => { s.history with
  sales := Function.update s.history.sales p.atype
    ((if counted s p.atype = 0 then [] else s.history.sales p.atype) ++ [⟨p, paid⟩]) }

/-- The goods are credited. -/
def deliver (p : Purchase) (paid expire : ℤ) : Step w Unit := do
  let amount := wrap (p.shopDat.n32Count * p.num)
  if p.shopDat.n32Type = 2 then AgentService.Account.addGold (.buy .goods p) amount
  else if p.shopDat.n32Type = 3 then
    let items ← act fun env => do draw (usePackageItem env p.shopDat.n32GoodsID (← get).level)
    discard (addItems (.buy .goods p) items)
    sold p paid
    let s ← get
    Activitys.addValue (.buy .count p) p.atype amount (some (wrap (s.clock.now + 60)))
    AgentService.Account.addBuyBoxTimes (.buy .spent p) (.buy .again p) (wrap (-p.num))
  else if p.shopDat.n32Type = 4 then
    discard (addItems (.buy .goods p) [(p.shopDat.n32GoodsID, amount)])
    sold p paid
    Activitys.addValue (.buy .count p) p.atype amount (some expire)
  else if p.shopDat.n32Type = 5 then
    let items ← act fun env => do draw (usePackageItem env p.shopDat.n32GoodsID (← get).level)
    discard (addItems (.buy .goods p) items)
    -- the operation's name is missing from the call, so the value lands in its place
    modify fun s => { s with user := { s.user with
      cooldowns := s.user.cooldowns.setValue s.env TimeLimitSale 0 none } }

/-- What a purchase takes off the balances. -/
def taken (account : Agent.Account) (p : Purchase) : ℤ :=
  let account' := pay account p.shopDat p.cost
  account.gold - account'.gold + (account.money - account'.money)

/-- The currency is taken off, the goods are credited. -/
def purchase (p : Purchase) (expire : ℤ) : Step w ℤ := do
  let s ← get
  Coroutine.when (p.shopDat.n32MoneyType = 1)
    (AgentService.Account.addGold (.buy .pay p) (wrap (-p.cost)))
  Coroutine.when (p.shopDat.n32MoneyType = 2)
    (AgentService.Account.addMoney (.buy .pay p) (wrap (-p.cost)))
  deliver p (taken s.user.account p) expire
  return 0

def buyShopItem (id num : ℤ) : Step w ℤ := do
  match w.shopRepository id with
  | none => .raise
  | some shopDat =>
      Coroutine.when (shopDat.n32Type = 4) (Coroutine.call (.cddown id num))
      let s ← get
      match counter s.env s.user shopDat with
      | none => .raise
      | some (atype, hasBuy) =>
          let p : Purchase := { shopDat, num, atype, hasBuy }
          match checks s.env s.user shopDat hasBuy p.cost num with
          | some errorCode => return errorCode
          | none =>
              if shopDat.n32Type = 3 then
                if ← AgentService.Account.haveBuyBoxTimes (.buy .quota p) num then
                  purchase p s.clock.refreshShopCard
                else return 4
              else purchase p s.clock.refreshShopCard

/-- The purchase that a request asks for, after the checks of balance and limit. -/
def asked (w : World) (s : State w) (id num : ℤ) : Option Purchase := do
  let shopDat ← w.shopRepository id
  let (atype, hasBuy) ← counter s.env s.user shopDat
  let p : Purchase := { shopDat, num, atype, hasBuy }
  if checks s.env s.user shopDat hasBuy p.cost num = none then some p else none

/-! ## The explorations -/

/-- The rows with the rates summed up. -/
def rates (level : ℤ) : ℤ → List (ℤ × ExploreRow) → List (ℤ × ExploreRow × ℤ)
  | _, [] => []
  | sum, (id, dat) :: rest =>
      let sum := wrap (sum + wrap (dat.n32RandC1 + wrap (dat.n32RandC2 * level)))
      (id, dat, sum) :: rates level sum rest

/-- A slot that asks for one thing only. -/
def halve (env : Env) (slots : Fin 3 → Slot) (j : Fin 3) : Draw (Fin 3 → Slot) := do
  let half ← random env 1 10000
  return Function.update slots j
    (if half < 5000 then { slots j with att := 0 } else { slots j with cam := 0 })

def initExplore (q : ExploreData) (env : Env) (level : ℤ) : Draw Explore := do
  let t := rates level 0 q.exploreRepository
  let rd ← random env 1 ((t.getLast?.map (·.2.2)).getD 0)
  match t.find? (fun v => v.2.2 ≥ rd) with
  | none => raise
  | some (dataId, dat, _) =>
      let att0 ← random env 1 3
      let cam0 ← random env 0 2
      let cam1 ← random env 0 2
      let att1 ← random env 1 3
      let cam2 ← random env 0 2
      let att2 ← random env 1 3
      let slots : Fin 3 → Slot :=
        ![⟨att0, 2 ^ cam0.toNat, ""⟩, ⟨att1, 2 ^ cam1.toNat, ""⟩, ⟨att2, 2 ^ cam2.toNat, ""⟩]
      let js : List (Fin 3) := if dat.n32Color = 2 then [0, 1, 2]
        else if dat.n32Color = 3 then [1, 2] else if dat.n32Color = 4 then [2] else []
      let slots ← js.foldlM (halve env) slots
      return { dataId, slots, time := 0 }

/-- A new exploration; its identifier is used up and not kept. -/
def drawExplore (q : ExploreData) (env : Env) : Act Explore := do
  modify fun user => { user with made := user.made + 1 }
  draw (initExplore q env (← get).level)

def resetExplore (op : Place) (q : ExploreData) (uuid : String) : Step w Unit := do
  let unit ← act (drawExplore q)
  let s ← get
  match s.explores uuid with
  | none => .raise
  | some _ =>
      set { s with
        explores := Function.update s.explores uuid (some unit)
        history := { s.history with due := Function.update s.history.due uuid none } }
      Coroutine.call op

def beginExplore (q : ExploreData) (args : BeginArgs) (found : Found) : Step w Unit := do
  let s ← get
  match s.explores args.uuid with
  | none => .raise
  | some unit =>
      match q.row unit.dataId with
      | none => .raise
      | some dat =>
          let time := wrap (s.clock.now + dat.n32Time)
          set { s with
            explores := Function.update s.explores args.uuid (some { unit with
              time, slots := fun i => { unit.slots i with uuid := args.uuids i } })
            history := { s.history with
              due := Function.update s.history.due args.uuid (some (s.clock.now + dat.n32Time))
              found := Function.update s.history.found args.uuid (some found) } }
          Coroutine.call (.beginExplore args)

/-! ## `REQUEST.exploreBegin` -/

def exploreBegin (q : ExploreData) (args : BeginArgs) : Step w ℤ := do
  let s ← get
  if ∀ i, args.uuids i = "" then return -1
  else match s.explores args.uuid with
  | none => .raise
  | some unit =>
      if unit.time ≠ 0 then return -1
      else
        let nextTime := s.clock.tomorrow
        (List.finRange 3).forM fun i => Coroutine.when (args.uuids i ≠ "")
          (Cards.setExplore (.setExplore args) (args.uuids i) nextTime)
        beginExplore q args ⟨s.user.cards, s.explores, s.clock.now⟩
        return 0

/-! ## `REQUEST.exploreEnd` -/

/-- `COLOR_C` -/
def COLOR_C : ℤ → Option ℤ
  | 1 => some 0
  | 2 => some 3
  | 3 => some 6
  | 4 => some 9
  | 5 => some 12
  | _ => none

/-- What the card of a slot adds to the score. -/
def slotScore (w : World) (exploreDat : ExploreRow) (cards : List Card) (slot : Slot) : Option ℤ :=
  match Cards.getCardByUuid cards slot.uuid with
  | none => some 0
  | some card => do
      let dat ← w.heroDat card.dataId
      let bonus ← if dat.n32Color ≥ exploreDat.n32Color then COLOR_C exploreDat.n32Color else some 0
      let att := if slot.att = dat.n32MainAtt then 5 else 0
      let cam := if bit_and_ne_zero slot.cam dat.n32Camp then 5 else 0
      return (3 + bonus) * (10 + att + cam)

def score (w : World) (exploreDat : ExploreRow) (cards : List Card) (unit : Explore) :
    Option ℤ := do
  let scores ← (List.finRange 3).mapM fun i => slotScore w exploreDat cards (unit.slots i)
  return scores.sum

def noteEnd (uuid : String) : Step w Unit := note fun s => { s.history with
  ended := s.history.ended ++ [⟨uuid, s.history.due uuid, s.clock.now⟩] }

/-- One package of the reward. -/
def reward (uuid : String) (itemId : ℤ) : Step w Unit := do
  noteEnd uuid
  let rets ← act fun env => do draw (usePackageItem env itemId (← get).level)
  discard (addItems (.reward uuid) rets)

def exploreEnd (q : ExploreData) (uuid : String) : Step w ℤ := do
  let s ← get
  match s.explores uuid with
  | none => .raise
  | some unit =>
      if unit.time > s.clock.now then return -1
      else match (q.row unit.dataId).bind fun dat =>
          (score w dat s.user.cards unit).map fun score => (dat, score) with
      | none => .raise
      | some (exploreDat, score) =>
          let gains := q.gains unit.dataId score
          (List.range gains.cn).forM fun _ => reward uuid exploreDat.n32CardItemId
          (List.range gains.sn).forM fun _ => reward uuid exploreDat.n32SkillItemId
          noteEnd uuid
          AgentService.Account.addGold (.reward uuid) gains.gold
          noteEnd uuid
          resetExplore (.resetExplore uuid) q uuid
          return 0

/-! ## `REQUEST.exploreRefresh` -/

/-- The refresh is about to be added to its counter. -/
def refreshed (paid : Bool) : Step w Unit := note fun s => { s.history with
  free := (if counted s RefreshExplore = 0 then 0 else s.history.free) + if paid then 0 else 1 }

def refresh (q : ExploreData) (uuid : String) (paid : Bool) (costMoney : ℤ) : Step w ℤ := do
  AgentService.Account.addMoney (.refresh .pay uuid paid) (-costMoney)
  refreshed paid
  let s ← get
  Activitys.addValue (.refresh .count uuid paid) RefreshExplore 1 (some s.clock.tomorrow)
  resetExplore (.refresh .reset uuid paid) q uuid
  note fun s => { s.history with paid := s.history.paid + if paid then 1 else 0 }
  return 0

/-- A refresh that costs something also takes one of the times of the day. -/
def refreshCounted (q : ExploreData) (uuid : String) (paid : Bool) (costMoney : ℤ) : Step w ℤ := do
  if ← AgentService.Account.haveExploreTimes (.refresh .quota uuid paid) then
    AgentService.Account.addExploreTimes (.refresh .times uuid paid)
      (.refresh .again uuid paid) (-1)
    refresh q uuid paid costMoney
  else return 2

def exploreRefresh (q : ExploreData) (uuid : String) : Step w ℤ := do
  let s ← get
  match s.explores uuid with
  | none => .raise
  | some unit =>
      if unit.time ≠ 0 then return -1
      else
        let paid := decide (counted s RefreshExplore ≥ q.RefreshExploreTimes)
        let costMoney := if paid then q.RefreshExploreCost else 0
        if costMoney > s.user.account.money then return 1
        else if costMoney ≠ 0 then refreshCounted q uuid paid costMoney
        else refresh q uuid paid costMoney

/-! ## The server -/

inductive Request
  | buyShopItem (id num : ℤ)
  | exploreBegin (args : BeginArgs)
  | exploreEnd (uuid : String)
  | exploreRefresh (uuid : String)
  | refreshTimes

def handle (q : ExploreData) : Request → Step w Unit
  | .buyShopItem id num => discard (buyShopItem id num)
  | .exploreBegin args => discard (exploreBegin q args)
  | .exploreEnd uuid => discard (exploreEnd q uuid)
  | .exploreRefresh uuid => discard (exploreRefresh q uuid)
  | .refreshTimes => AgentService.Account.refreshTimes .times

/-- The change from outside is that time goes on. -/
def server (w : World) (q : ExploreData) : Server (State w) Place Request Clock where
  handle := handle q
  outside clock s := { s with clock }

/-- Any request at any time, while time goes on. -/
def anyOrder (w : World) : Server.Guard (State w) Place Request Clock where
  request _ _ _ := True
  resume _ _ _ := True
  outside s _ clock := s.clock.now ≤ clock.now ∧ clock.now < 2 ^ 62

/-! ## A small game -/

/-- One row; an exploration of it brings five gold for each point of the score. -/
def library : ExploreData where
  exploreRepository := [(10001, ⟨2, 70001, 71001, 21600, 55, 0, by decide⟩)]
  gains _ score := ⟨0, 0, 5 * score⟩
  RefreshExploreTimes := 0
  RefreshExploreCost := 20
  times_range := by decide
  cost_range := by decide

def idle : Explore where
  dataId := 10001
  slots _ := ⟨0, 1, ""⟩
  time := 0

/-- A player with one card and one idle exploration. -/
def idler : State default :=
  { (default : State default) with
    user := { (default : User) with cards :=
      [{ uuid := "c", dataId := 101, count := 0, skills := [] }] }
    explores := fun u => if u = "e" then some idle else none
    clock := ⟨1000, 86400, 86400⟩ }

end GameServer.Player
