import Mathlib.Tactic
import GameServer.Shop

/-!
# When a purchase is fair

The checks of `buyShopItem` compare one side only and multiply by a number they never look at, so a
purchase of zero or fewer units, a product that wraps, and a row that is priced in neither currency
all pass them. `FairWhen` is the exact condition on the request and the account.
-/

namespace GameServer.Shop

open Goods Agent

/-! ## The condition -/

/-- The request is refused before anything is touched. -/
inductive Refused (env : Env) (user : User) (shopDat : ShopRow) (hasBuy num : ℤ) : Prop
  | gold : shopDat.n32MoneyType = 1 → user.account.gold < costPrice shopDat hasBuy num →
      Refused env user shopDat hasBuy num
  | money : shopDat.n32MoneyType = 2 → user.account.money < costPrice shopDat hasBuy num →
      Refused env user shopDat hasBuy num
  | limit : 0 < shopDat.n32Limit → shopDat.n32Type = 4 ∨ shopDat.n32Type = 3 →
      shopDat.n32Limit < wrap (hasBuy + num) → Refused env user shopDat hasBuy num
  | closed : 0 < shopDat.n32Limit → shopDat.n32Type = 5 →
      user.cooldowns.getValue env TimeLimitSale = 0 → Refused env user shopDat hasBuy num

/-- The daily quota of boxes, after the refresh if one is due, does not suffice. -/
def QuotaSpent (env : Env) (user : User) (shopDat : ShopRow) (num : ℤ) : Prop :=
  shopDat.n32Type = 3 ∧ (user.account.refreshTimes env).buyboxtimes < num ∧
    (user.account.refreshTimes env).buyboxtimes ≠ -1

/-- Handing out the goods of the row. -/
def handsOut (env : Env) (shopDat : ShopRow) (num : ℤ) : Act Unit := do
  if shopDat.n32Type = 3 ∨ shopDat.n32Type = 5 then
    let items ← draw (usePackageItem env shopDat.n32GoodsID (← get).level)
    addItems env items
  else if shopDat.n32Type = 4 then
    addItems env [(shopDat.n32GoodsID, wrap (shopDat.n32Count * num))]
  else return

/-- The account when the goods are handed out. -/
def paidUser (env : Env) (user : User) (shopDat : ShopRow) (hasBuy num : ℤ) : User :=
  let account := if shopDat.n32Type = 3 then user.account.refreshTimes env else user.account
  { user with account := pay account shopDat (costPrice shopDat hasBuy num) }

/-- The exact price of at least one unit is there, and the goods can be handed out. -/
structure Payable (env : Env) (user : User) (shopDat : ShopRow) (hasBuy num : ℤ) : Prop where
  one_le : 1 ≤ num
  counted : shopDat.n32Type = 4 → 0 ≤ hasBuy
  affordable : ∃ b, balance user.account shopDat = some b ∧ price shopDat hasBuy num ≤ b
  deliverable : (handsOut env shopDat num (paidUser env user shopDat hasBuy num)).isSome

def FairWhen (env : Env) (user : User) (shopDat : ShopRow) (num : ℤ) : Prop :=
  ∃ atype hasBuy, counter env user shopDat = some (atype, hasBuy) ∧
    (Refused env user shopDat hasBuy num ∨
      (QuotaSpent env user shopDat num ∧
        (env.now ≤ user.account.refreshtime ∨ user.account.buyboxtimes = 20)) ∨
      (¬ QuotaSpent env user shopDat num ∧ Payable env user shopDat hasBuy num))

variable {env : Env} {user : User} {shopDat : ShopRow} {hasBuy num : ℤ}

/-! ## Checks -/

theorem checks_eq_none :
    checks env user shopDat hasBuy (costPrice shopDat hasBuy num) num = none ↔
      ¬ Refused env user shopDat hasBuy num := by
  unfold checks
  constructor
  · rintro h (⟨hm, hlt⟩ | ⟨hm, hlt⟩ | ⟨hlim, ht, hlt⟩ | ⟨hlim, ht, hval⟩)
    · rw [if_pos ⟨hm, hlt⟩] at h
      cases h
    · rw [if_neg (by rintro ⟨h1, -⟩; omega), if_pos ⟨hm, hlt⟩] at h
      cases h
    · rw [if_pos hlim, if_pos ht, if_pos hlt] at h
      split_ifs at h
    · have hno : ¬ (shopDat.n32Type = 4 ∨ shopDat.n32Type = 3) := by omega
      rw [if_pos hlim, if_neg hno, if_pos ht, if_pos hval] at h
      split_ifs at h
  · intro h
    rw [if_neg (fun hc => h (.gold hc.1 hc.2)), if_neg (fun hc => h (.money hc.1 hc.2))]
    split_ifs with hlim ht hlt ht5 hval
    · exact absurd (.limit hlim ht hlt) h
    · rfl
    · exact absurd (.closed hlim ht5 hval) h
    · rfl
    · rfl
    · rfl

theorem checks_ne_zero {cost code : ℤ} (h : checks env user shopDat hasBuy cost num = some code) :
    code ≠ 0 := by
  unfold checks at h
  split_ifs at h <;> cases h <;> decide

/-! ## The price -/

theorem costPrice_eq (shopDat : ShopRow) (hasBuy num : ℤ) :
    costPrice shopDat hasBuy num = wrap (price shopDat hasBuy num) := by
  unfold costPrice price wrap
  split_ifs
  · rw [Int.bmod_mul_bmod, ← Int.bmod_mul_bmod, Int.mul_bmod_bmod, Int.bmod_mul_bmod]
  · rfl

/-- For a positive unit price and at least one unit the price covers the unit price exactly when
the counter of a material is not negative. -/
theorem le_price_iff (hprice : 0 < shopDat.n32Price) (hnum : 1 ≤ num) :
    shopDat.n32Price ≤ price shopDat hasBuy num ↔ (shopDat.n32Type = 4 → 0 ≤ hasBuy) := by
  unfold price
  split_ifs with h4
  · constructor
    · intro hle _
      by_contra hneg
      have hzero : 1 + hasBuy ≤ 0 := by omega
      have hle0 : shopDat.n32Price * (1 + hasBuy) ≤ 0 :=
        mul_nonpos_of_nonneg_of_nonpos hprice.le hzero
      have : shopDat.n32Price * (1 + hasBuy) * num ≤ 0 :=
        mul_nonpos_of_nonpos_of_nonneg hle0 (by omega)
      omega
    · intro h
      have hunit : shopDat.n32Price ≤ shopDat.n32Price * (1 + hasBuy) :=
        le_mul_of_one_le_right hprice.le (by have := h h4; omega)
      exact hunit.trans (le_mul_of_one_le_right (by omega) hnum)
  · exact ⟨fun _ h => absurd h h4, fun _ => le_mul_of_one_le_right hprice.le hnum⟩

/-- The debit is the exact price when the balance holds it. -/
theorem clamp_debit {b p : ℤ} (hb : b ≤ maxint32) (hp : 0 < p) (hle : p ≤ b) :
    b - mClamp (wrap (b + wrap (-wrap p))) 0 maxint32 = p := by
  have hmax : maxint32 = 2147483647 := rfl
  have h₁ : wrap p = p := wrap_of_range (by omega) (by omega)
  have h₂ : wrap (-p) = -p := wrap_of_range (by omega) (by omega)
  have h₃ : wrap (b + -p) = b + -p := wrap_of_range (by omega) (by omega)
  rw [h₁, h₂, h₃]
  unfold mClamp
  rw [if_neg (by omega), if_neg (by omega)]
  omega

theorem balance_mem {account : Account} {b : ℤ} (h : balance account shopDat = some b) :
    0 ≤ b ∧ b ≤ maxint32 := by
  unfold balance at h
  split_ifs at h <;> cases h
  · exact account.gold.2
  · exact account.money.2

theorem balance_pay (shopDat : ShopRow) (account : Account) (cost : ℤ) {b : ℤ}
    (hcost : wrap (-cost) ≠ 0) (h : balance account shopDat = some b) :
    balance (pay account shopDat cost) shopDat =
      some (mClamp (wrap (b + wrap (-cost))) 0 maxint32) := by
  unfold balance pay at *
  split_ifs at h ⊢ with h1 h2 <;> cases h
  · simp [Account.addGold, hcost]
  · simp [Account.addMoney, hcost]

theorem balance_pay_isSome (account : Account) (cost : ℤ) {b : ℤ}
    (h : balance account shopDat = some b) :
    ∃ b', balance (pay account shopDat cost) shopDat = some b' ∧ 0 ≤ b' := by
  unfold balance at h
  unfold balance
  split_ifs at h ⊢ with h1 h2
  · exact ⟨_, rfl, (pay account shopDat cost).gold.2.1⟩
  · exact ⟨_, rfl, (pay account shopDat cost).money.2.1⟩

theorem balance_refreshTimes (account : Account) :
    balance (account.refreshTimes env) shopDat = balance account shopDat := by
  unfold Account.refreshTimes balance
  split_ifs <;> rfl

theorem debited_iff {paid : User} {account : Account} {cost : ℤ}
    (hacc : balance account shopDat = balance user.account shopDat)
    (hpaid : paid.account = pay account shopDat cost)
    (hcost : cost = costPrice shopDat hasBuy num) (hprice : 0 < shopDat.n32Price)
    (hnum : 1 ≤ num) :
    (∃ debit, Debited user paid shopDat debit ∧ shopDat.n32Price ≤ debit ∧
        debit = price shopDat hasBuy num) ↔
      (shopDat.n32Type = 4 → 0 ≤ hasBuy) ∧
        ∃ b, balance user.account shopDat = some b ∧ price shopDat hasBuy num ≤ b := by
  subst hcost
  constructor
  · rintro ⟨_, ⟨before, after, hb, ha, rfl⟩, hle, heq⟩
    rw [hpaid] at ha
    obtain ⟨b', hb', hpos⟩ := balance_pay_isSome account (costPrice shopDat hasBuy num)
      (hacc.trans hb)
    rw [ha, Option.some.injEq] at hb'
    exact ⟨(le_price_iff hprice hnum).mp (heq ▸ hle), before, hb, by omega⟩
  · rintro ⟨hcount, b, hb, hle⟩
    have hmem := balance_mem hb
    have hunit := (le_price_iff hprice hnum).mpr hcount
    have hpos : 0 < price shopDat hasBuy num := by omega
    have hmax : maxint32 = 2147483647 := rfl
    have hwrap : wrap (-wrap (price shopDat hasBuy num)) = -price shopDat hasBuy num := by
      rw [wrap_of_range (x := price shopDat hasBuy num) (by omega) (by omega),
        wrap_of_range (by omega) (by omega)]
    have ha := balance_pay shopDat account (costPrice shopDat hasBuy num)
      (by rw [costPrice_eq, hwrap]; omega) (hacc.trans hb)
    refine ⟨_, ⟨b, _, hb, hpaid ▸ ha, rfl⟩, ?_, ?_⟩
    · rw [costPrice_eq, clamp_debit hmem.2 hpos hle]
      exact hunit
    · rw [costPrice_eq, clamp_debit hmem.2 hpos hle]

/-! ## The goods -/

theorem isSome_bind_congr {α β γ : Type} {m : Act α} {f : α → Act β} {g : α → Act γ}
    (h : ∀ a u, (f a u).isSome = (g a u).isSome) (user : User) :
    ((m >>= f) user).isSome = ((m >>= g) user).isSome := by
  change ((m user).bind fun r => f r.1 r.2).isSome = ((m user).bind fun r => g r.1 r.2).isSome
  cases m user with
  | none => rfl
  | some r => exact h r.1 r.2

theorem isSome_bind_total {α β : Type} {m : Act α} {f : α → Act β} (h : ∀ a u, (f a u).isSome)
    (user : User) : ((m >>= f) user).isSome = (m user).isSome := by
  change ((m user).bind fun r => f r.1 r.2).isSome = (m user).isSome
  cases m user with
  | none => rfl
  | some r => exact h r.1 r.2

theorem deliver_isSome (env : Env) (shopDat : ShopRow) (num atype : ℤ) (paid : User) :
    (deliver env shopDat atype num paid).isSome = (handsOut env shopDat num paid).isSome := by
  unfold deliver handsOut
  by_cases h2 : shopDat.n32Type = 2
  · rw [if_pos h2, if_neg (by omega), if_neg (by omega)]
    rfl
  · rw [if_neg h2]
    by_cases h3 : shopDat.n32Type = 3
    · rw [if_pos h3, if_pos (Or.inl h3)]
      refine isSome_bind_congr (fun u v => isSome_bind_congr (fun items w => ?_) v) paid
      exact isSome_bind_total (fun _ _ => rfl) w
    · rw [if_neg h3]
      by_cases h4 : shopDat.n32Type = 4
      · rw [if_pos h4, if_neg (by omega), if_pos h4]
        exact isSome_bind_total (fun _ _ => rfl) paid
      · rw [if_neg h4]
        by_cases h5 : shopDat.n32Type = 5
        · rw [if_pos h5, if_pos (Or.inr h5)]
          refine isSome_bind_congr (fun u v => isSome_bind_congr (fun items w => ?_) v) paid
          exact isSome_bind_total (fun _ _ => rfl) w
        · rw [if_neg h5, if_neg (by omega), if_neg h4]
          rfl

/-! ## The theorem -/

theorem buyShopItem_eq (num : ℤ) {id atype : ℤ} (hid : env.data.shopRepository id = some shopDat)
    (hc : counter env user shopDat = some (atype, hasBuy)) :
    buyShopItem env user id num =
      match checks env user shopDat hasBuy (costPrice shopDat hasBuy num) num with
      | some errorCode => some ⟨⟨errorCode, id, []⟩, user, user⟩
      | none =>
          if shopDat.n32Type = 3 ∧ (user.account.haveBuyBoxTimes env num).2 = false then
            some ⟨⟨4, id, []⟩, { user with account := user.account.refreshTimes env },
              { user with account := user.account.refreshTimes env }⟩
          else (deliver env shopDat atype num (paidUser env user shopDat hasBuy num)).map
            fun r => ⟨⟨0, id, r.1⟩, paidUser env user shopDat hasBuy num, r.2⟩ := by
  simp only [buyShopItem, hid, hc, Option.bind_eq_bind, Option.bind_some]
  cases checks env user shopDat hasBuy (costPrice shopDat hasBuy num) num with
  | some code => rfl
  | none =>
      dsimp only
      by_cases h3 : shopDat.n32Type = 3
      · cases hq : (user.account.haveBuyBoxTimes env num).2 with
        | false =>
            simp only [h3, hq, if_true, Bool.not_false, and_self]
            rfl
        | true =>
            simp only [h3, hq, if_true, Bool.not_true, Bool.false_eq_true, if_false, paidUser,
              Option.map_eq_bind]
            rfl
      · simp only [h3, if_false, Bool.not_true, Bool.false_eq_true, paidUser, false_and,
          Option.map_eq_bind]
        rfl

theorem quotaSpent_iff : (shopDat.n32Type = 3 ∧ (user.account.haveBuyBoxTimes env num).2 = false) ↔
    QuotaSpent env user shopDat num := by
  simp only [Account.haveBuyBoxTimes, QuotaSpent, decide_eq_false_iff_not, not_or, not_le,
    ge_iff_le]

theorem unchanged_refreshTimes :
    Unchanged user { user with account := user.account.refreshTimes env } ↔
      (env.now ≤ user.account.refreshtime ∨ user.account.buyboxtimes = 20) := by
  unfold Unchanged Account.refreshTimes
  split_ifs with hstale
  · simp only [true_and]
    omega
  · simp only [true_and, true_iff]
    exact Or.inl (not_lt.mp hstale)

theorem paidUser_account :
    (paidUser env user shopDat hasBuy num).account =
      pay (if shopDat.n32Type = 3 then user.account.refreshTimes env else user.account) shopDat
        (costPrice shopDat hasBuy num) := rfl

theorem balance_refreshed :
    balance (if shopDat.n32Type = 3 then user.account.refreshTimes env else user.account) shopDat =
      balance user.account shopDat := by
  split_ifs
  · exact balance_refreshTimes user.account
  · rfl

/-- A row with a positive price is sold fairly exactly under `FairWhen`. -/
theorem buyShopItem_fair_iff (env : Env) (user : User) (shopDat : ShopRow) (id num : ℤ)
    (hid : env.data.shopRepository id = some shopDat) (hprice : 0 < shopDat.n32Price) :
    Fair env user shopDat id num ↔ FairWhen env user shopDat num := by
  cases hc : counter env user shopDat with
  | none =>
      refine iff_of_false ?_ (by rintro ⟨_, _, h, -⟩; rw [hc] at h; cases h)
      rintro ⟨out, hout, -⟩
      simp only [buyShopItem, hid, hc, Option.bind_eq_bind, Option.bind_some,
        Option.bind_none] at hout
      cases hout
  | some c =>
      obtain ⟨atype, hasBuy⟩ := c
      have hwhen : FairWhen env user shopDat num ↔ Refused env user shopDat hasBuy num ∨
          (QuotaSpent env user shopDat num ∧
            (env.now ≤ user.account.refreshtime ∨ user.account.buyboxtimes = 20)) ∨
          (¬ QuotaSpent env user shopDat num ∧ Payable env user shopDat hasBuy num) := by
        constructor
        · rintro ⟨_, _, h, hrest⟩
          rw [hc, Option.some.injEq, Prod.mk.injEq] at h
          exact h.2 ▸ hrest
        · exact fun h => ⟨atype, hasBuy, hc, h⟩
      rw [hwhen]
      have hrun := buyShopItem_eq num hid hc
      cases hchk : checks env user shopDat hasBuy (costPrice shopDat hasBuy num) num with
      | some code =>
          rw [hchk] at hrun
          refine iff_of_true ⟨_, hrun, Or.inl
            ⟨checks_ne_zero hchk, rfl, rfl, rfl, rfl, rfl, rfl⟩⟩ ?_
          left
          by_contra hno
          rw [checks_eq_none.mpr hno] at hchk
          cases hchk
      | none =>
          rw [hchk] at hrun
          have hno := checks_eq_none.mp hchk
          by_cases hq : QuotaSpent env user shopDat num
          · -- the quota is refreshed before it is found spent
            rw [if_pos (quotaSpent_iff.mpr hq)] at hrun
            constructor
            · rintro ⟨out, hout, ⟨-, hsame⟩ | ⟨hzero, -⟩⟩
              · rw [hrun, Option.some.injEq] at hout
                subst hout
                exact Or.inr (Or.inl ⟨hq, unchanged_refreshTimes.mp hsame⟩)
              · rw [hrun, Option.some.injEq] at hout
                subst hout
                cases hzero
            · rintro (href | ⟨-, hsame⟩ | ⟨hnq, -⟩)
              · exact absurd href hno
              · exact ⟨_, hrun, Or.inl ⟨by simp, unchanged_refreshTimes.mpr hsame⟩⟩
              · exact absurd hq hnq
          · rw [if_neg (fun h => hq (quotaSpent_iff.mp h))] at hrun
            have hgoods := deliver_isSome env shopDat num atype
              (paidUser env user shopDat hasBuy num)
            constructor
            · rintro ⟨out, hout, ⟨hne, -⟩ | ⟨-, hnum, atype', hasBuy', debit, hc', hdebit⟩⟩
              · rw [hrun, Option.map_eq_some_iff] at hout
                obtain ⟨r, -, rfl⟩ := hout
                exact absurd rfl hne
              · rw [hc, Option.some.injEq, Prod.mk.injEq] at hc'
                obtain ⟨rfl, rfl⟩ := hc'
                rw [hrun, Option.map_eq_some_iff] at hout
                obtain ⟨r, hr, rfl⟩ := hout
                have hpaid := (debited_iff balance_refreshed paidUser_account rfl hprice hnum).mp
                  ⟨debit, hdebit⟩
                refine Or.inr (Or.inr ⟨hq, hnum, hpaid.1, hpaid.2, ?_⟩)
                rw [← hgoods, hr]
                rfl
            · rintro (href | ⟨hq', -⟩ | ⟨-, hnum, hcount, hpay, hdel⟩)
              · exact absurd href hno
              · exact absurd hq' hq
              · rw [← hgoods] at hdel
                obtain ⟨r, hr⟩ := Option.isSome_iff_exists.mp hdel
                rw [hr, Option.map_some] at hrun
                obtain ⟨debit, hdebit⟩ := (debited_iff balance_refreshed paidUser_account rfl hprice
                  hnum).mpr ⟨hcount, hpay⟩
                exact ⟨_, hrun, Or.inr ⟨rfl, hnum, atype, hasBuy, debit, hc, hdebit⟩⟩

/-- A shop of one row and no packages. -/
def shelf (shopDat : ShopRow) : Env where
  data := {
    shopRepository := fun _ => some shopDat
    itemRepository := fun _ => none
    dropPackage := fun _ => none
    itemDropPackage := fun _ => none
    heroRepository := fun _ => none
    skillRepository := fun _ => none
    autoGainSkills := [] }
  now := 0
  tomorrow := 86400
  refreshShopCard := 86400
  rand := fun _ => 0
  uuid := fun _ => ""
  pairs := id
  pairs_perm := id_perm

/-- Gold for diamonds. -/
def goldRow : ShopRow where
  n32Type := 2
  n32Site := 0
  n32Count := 1000
  n32Price := 6
  n32MoneyType := 2
  n32Limit := 0
  n32GoodsID := 0

def customer : User where
  account := {
    gold := ⟨5000, by decide⟩
    money := ⟨100, hundred_balance⟩
    exploretimes := 20
    buyboxtimes := 20
    refreshtime := 86400 }
  cards := []
  skills := []
  activitys := fun _ => none
  cooldowns := fun _ => none
  level := 1

theorem buyShopItem_fair_gold :
    Fair (shelf goldRow) customer goldRow 10101 2 ↔ FairWhen (shelf goldRow) customer goldRow 2 :=
  buyShopItem_fair_iff (shelf goldRow) customer goldRow 10101 2 rfl (by decide)

/-- A purchase of minus one unit is accepted: it gives six diamonds and takes a thousand gold. -/
theorem buyShopItem_negative :
    buyShopItem (shelf goldRow) customer 10101 (-1) = some ⟨⟨0, 10101, []⟩,
        { customer with account := { customer.account with money := ⟨106, by decide⟩ } },
        { customer with account := { customer.account with
          gold := ⟨4000, by decide⟩, money := ⟨106, by decide⟩ } }⟩ ∧
      ¬ ∀ (env : Env) (user : User) (shopDat : ShopRow) (id num : ℤ),
        env.data.shopRepository id = some shopDat → 0 < shopDat.n32Price → 0 < shopDat.n32Count →
          Fair env user shopDat id num := by
  have hrun : buyShopItem (shelf goldRow) customer 10101 (-1) = some ⟨⟨0, 10101, []⟩,
      { customer with account := { customer.account with money := ⟨106, by decide⟩ } },
      { customer with account := { customer.account with
        gold := ⟨4000, by decide⟩, money := ⟨106, by decide⟩ } }⟩ := rfl
  refine ⟨hrun, fun hclaim => ?_⟩
  obtain ⟨out, hout, ⟨hne, -⟩ | ⟨-, hnum, -⟩⟩ :=
    hclaim (shelf goldRow) customer goldRow 10101 (-1) rfl (by decide) (by decide)
  · rw [hrun, Option.some.injEq] at hout
    exact hne (by rw [← hout])
  · omega

end GameServer.Shop
