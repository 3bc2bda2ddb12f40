import Mathlib.Tactic
import GameServer.Agent

/-!
# Buying from the shop

`REQUEST.buyShopItem`, run from start to end without another request in between. The number of
units comes from the client and may be any integer.
-/

namespace GameServer.Shop

open Goods Agent

/-- `ActivityAccountType["BuyShopCard"..site]` -/
def BuyShopCard : ℤ → Option ℤ
  | 0 => some 1001
  | 1 => some 1002
  | 2 => some 1003
  | _ => none

/-- `ActivityAccountType["BaoXiang"..site]` -/
def BaoXiang : ℤ → Option ℤ
  | 0 => some 4001
  | 1 => some 4002
  | 2 => some 4003
  | 3 => some 4004
  | _ => none

/-- `CoolDownAccountType.TimeLimitSale` -/
def TimeLimitSale : ℤ := 1001

/-- The counter of a row: its type and its value. A site without a counter is an error. -/
def counter (env : Env) (user : User) (shopDat : ShopRow) : Option (ℤ × ℤ) :=
  if shopDat.n32Type = 4 then
    (BuyShopCard shopDat.n32Site).map (fun atype => (atype, user.activitys.getValue env atype))
  else if shopDat.n32Type = 3 then
    (BaoXiang shopDat.n32Site).map (fun atype => (atype, user.activitys.getValue env atype))
  else some (0, 0)

def costPrice (shopDat : ShopRow) (hasBuy num : ℤ) : ℤ :=
  if shopDat.n32Type = 4 then wrap (wrap (shopDat.n32Price * wrap (1 + hasBuy)) * num)
  else wrap (shopDat.n32Price * num)

/-- The balance in the currency the row is priced in. -/
def balance (account : Account) (shopDat : ShopRow) : Option ℤ :=
  if shopDat.n32MoneyType = 1 then some account.gold
  else if shopDat.n32MoneyType = 2 then some account.money
  else none

/-- The checks that leave the account alone: the error code, or `none` to go on. -/
def checks (env : Env) (user : User) (shopDat : ShopRow) (hasBuy cost num : ℤ) : Option ℤ :=
  if shopDat.n32MoneyType = 1 ∧ user.account.gold < cost then some 1
  else if shopDat.n32MoneyType = 2 ∧ user.account.money < cost then some 2
  else if shopDat.n32Limit > 0 then
    if shopDat.n32Type = 4 ∨ shopDat.n32Type = 3 then
      if wrap (hasBuy + num) > shopDat.n32Limit then some 3 else none
    else if shopDat.n32Type = 5 then
      if user.cooldowns.getValue env TimeLimitSale = 0 then some (-1) else none
    else none
  else none

/-- The currency is taken off. -/
def pay (account : Account) (shopDat : ShopRow) (cost : ℤ) : Account :=
  if shopDat.n32MoneyType = 1 then account.addGold (wrap (-cost))
  else if shopDat.n32MoneyType = 2 then account.addMoney (wrap (-cost))
  else account

/-- The items that the client is told about. -/
def idsOf (env : Env) (items : IntTable) : List ℤ :=
  (env.pairs items).flatMap (fun e => [e.1, e.2])

/-- The goods are credited; the result is `ids`. -/
def deliver (env : Env) (shopDat : ShopRow) (atype num : ℤ) : Act (List ℤ) := do
  let amount := wrap (shopDat.n32Count * num)
  if shopDat.n32Type = 2 then
    modify fun user => { user with account := user.account.addGold amount }
    return []
  else if shopDat.n32Type = 3 then
    let items ← draw (usePackageItem env shopDat.n32GoodsID (← get).level)
    addItems env items
    modify fun user => { user with
      activitys := user.activitys.addValue env atype amount (some (wrap (env.now + 60)))
      account := user.account.addBuyBoxTimes env (wrap (-num)) }
    return idsOf env items
  else if shopDat.n32Type = 4 then
    addItems env [(shopDat.n32GoodsID, amount)]
    modify fun user => { user with
      activitys := user.activitys.addValue env atype amount (some env.refreshShopCard) }
    return []
  else if shopDat.n32Type = 5 then
    let items ← draw (usePackageItem env shopDat.n32GoodsID (← get).level)
    addItems env items
    -- the operation's name is missing from the call, so the value lands in its place
    modify fun user => { user with
      cooldowns := user.cooldowns.setValue env TimeLimitSale 0 none }
    return idsOf env items
  else return []

structure Reply where
  errorCode : ℤ
  shopId : ℤ
  ids : List ℤ

/-- The reply with the agent after the request; `paid` is the agent between payment and goods. -/
structure Outcome where
  reply : Reply
  paid : User
  user : User

def buyShopItem (env : Env) (user : User) (id num : ℤ) : Option Outcome := do
  let shopDat ← env.data.shopRepository id
  let (atype, hasBuy) ← counter env user shopDat
  let cost := costPrice shopDat hasBuy num
  match checks env user shopDat hasBuy cost num with
  | some errorCode => some ⟨⟨errorCode, id, []⟩, user, user⟩
  | none =>
      let (account, have_) := if shopDat.n32Type = 3 then user.account.haveBuyBoxTimes env num
        else (user.account, true)
      let user := { user with account }
      if !have_ then some ⟨⟨4, id, []⟩, user, user⟩
      else
        let paid := { user with account := pay user.account shopDat cost }
        let (ids, user) ← deliver env shopDat atype num paid
        some ⟨⟨0, id, ids⟩, paid, user⟩

/-! ## What a fair purchase is -/

/-- What `num` units cost, without wrapping. -/
def price (shopDat : ShopRow) (hasBuy num : ℤ) : ℤ :=
  if shopDat.n32Type = 4 then shopDat.n32Price * (1 + hasBuy) * num else shopDat.n32Price * num

/-- What must not change when the request is refused. -/
def Unchanged (user user' : User) : Prop :=
  user'.account.gold = user.account.gold ∧ user'.account.money = user.account.money ∧
    user'.cards = user.cards ∧ user'.skills = user.skills ∧ user'.activitys = user.activitys ∧
    user'.account.buyboxtimes = user.account.buyboxtimes

/-- The currency the row is priced in went down by `debit` before the goods were credited. -/
def Debited (user paid : User) (shopDat : ShopRow) (debit : ℤ) : Prop :=
  ∃ before after, balance user.account shopDat = some before ∧
    balance paid.account shopDat = some after ∧ before - after = debit

/-- The request is refused without a change, or its price is paid for at least one unit. -/
def Fair (env : Env) (user : User) (shopDat : ShopRow) (id num : ℤ) : Prop :=
  ∃ out, buyShopItem env user id num = some out ∧
    ((out.reply.errorCode ≠ 0 ∧ Unchanged user out.user) ∨
      (out.reply.errorCode = 0 ∧ 1 ≤ num ∧ ∃ atype hasBuy debit,
        counter env user shopDat = some (atype, hasBuy) ∧
        Debited user out.paid shopDat debit ∧ shopDat.n32Price ≤ debit ∧
        debit = price shopDat hasBuy num))

end GameServer.Shop
