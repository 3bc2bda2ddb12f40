import GameServer.AgentFrame
import GameServer.Bill
import GameServer.ShopFair
import GameServer.Transition

/-!
# The special offer

One cooldown cell stands for the offer. A new level opens it with the end of the offer where the
cell wants its length, so it stays open for as long again as the clock has run; a purchase tries to
close it with a call that does nothing. The claim of the offer is kept beside it as history.
-/

namespace GameServer.Shop.SpecialOffer

open Goods Agent Transition

/-- A row of the shop with the level that opens its offer. -/
structure SaleRow extends ShopRow where
  n32ArenaLvUpLimit : ℤ
  limit_range : -2 ^ 31 ≤ n32Limit ∧ n32Limit < 2 ^ 31

/-- The shop as `pairs` visits it. -/
structure Market where
  env : Env
  shopRepository : List (ℤ × SaleRow)
  rows : ∀ id, env.data.shopRepository id =
    (shopRepository.find? fun e => e.1 = id).map fun e => e.2.toShopRow

/-- The row whose offer a level opens. -/
def Market.offer (m : Market) (lv : ℤ) : Option SaleRow :=
  (m.shopRepository.find? fun e => e.2.n32Type = 5 ∧ e.2.n32ArenaLvUpLimit = lv).map Prod.snd

/-- An offer that was opened, by a new level or with the account. -/
structure Opening where
  time : ℤ
  limit : ℤ
  registered : Bool

/-- The offer should be on from its opening for its length. -/
def Opening.Lasts (o : Opening) (now : ℤ) : Prop := o.time ≤ now ∧ now < o.time + o.limit

/-- Until when the cell is open: a new level adds the time of the day to the length. -/
def Opening.until (o : Opening) : ℤ :=
  if o.registered then o.time + o.limit else 2 * o.time + o.limit

/-- A player with the cell as the store has it. `openings` are all openings and `since` those since
the last purchase of an offer. -/
structure Player where
  now : ℤ
  user : User
  stored : Option ℤ
  openings : List Opening
  since : List Opening

namespace Player

variable (m : Market) (s : Player)

def clock : Env := { m.env with now := s.now }

/-- The value of the cell in the agent. -/
def cell : Option ℤ := s.user.cooldowns TimeLimitSale

/-- `setValue` of the cell; the store gets what it changes. -/
def setValue (val : ℤ) : Player :=
  let cooldowns := s.user.cooldowns.setValue (s.clock m) 0 TimeLimitSale (some val)
  { s with
    user := { s.user with cooldowns }
    stored := if cooldowns TimeLimitSale = s.cell then s.stored else cooldowns TimeLimitSale }

/-- `onExp`, where the experience makes the level `lv`. -/
def onExp (lv : ℤ) : Player :=
  if s.user.level ≠ lv then
    let s' := match m.offer lv with
      | none => s
      | some v =>
        let opening : Opening := { time := s.now, limit := v.n32Limit, registered := false }
        { s.setValue m (wrap (s.now + v.n32Limit)) with
          openings := opening :: s.openings
          since := opening :: s.since }
    { s' with user := { s'.user with level := lv } }
  else s

/-- The cooldowns after `loadAccount`; the cell is the only one of its table. -/
def loadAccount (now : ℤ) (stored : Option ℤ) : Cooldowns := fun atype =>
  if atype = TimeLimitSale then stored.filter fun value => value > now else none

def buy (id num : ℤ) : Option Player := do
  let shopDat ← m.env.data.shopRepository id
  let out ← buyShopItem (s.clock m) s.user id num
  some { s with
    user := out.user
    since := if shopDat.n32Type = 5 ∧ out.reply.errorCode = 0 then [] else s.since }

/-- An opening since the last purchase lasts. -/
def Offered : Prop := ∃ o ∈ s.since, o.Lasts s.now

end Player

/-- `other` is work that leaves level and cooldowns alone; the level is found again after a
login. -/
inductive Event
  | onExp (lv : ℤ)
  | buy (id num : ℤ)
  | pass (seconds : ℕ)
  | reload (lv : ℤ)
  | other (account : Account) (cards : List Card) (skills : List Skill) (activitys : Activitys)
      (drawn made : ℕ)

def Player.step (m : Market) (s : Player) : Event → Option Player
  | .onExp lv => some (s.onExp m lv)
  | .buy id num => s.buy m id num
  | .pass seconds => if s.now + seconds < 2 ^ 61 then some { s with now := s.now + seconds }
    else none
  | .reload lv => some { s with
      user := { s.user with cooldowns := Player.loadAccount s.now s.stored, level := lv } }
  | .other account cards skills activitys drawn made => some { s with
      user := { s.user with account, cards, skills, activitys, drawn, made } }

/-- `firstRegister` writes the offer of the first level to the store, and the player logs in. -/
def register (m : Market) (start : ℤ) (user : User) : Player :=
  let openings := (m.offer 1).toList.map fun v => ⟨start, v.n32Limit, true⟩
  let stored := (m.offer 1).map fun v => wrap (start + v.n32Limit)
  { now := start
    user := { user with cooldowns := Player.loadAccount start stored }
    stored
    openings
    since := openings }

def sale (m : Market) (start : ℤ) (user : User) : System Player Event where
  init := register m start user
  step := Player.step m

variable {m : Market} {s s' : Player} {start time lv id num : ℤ} {user : User} {e : Event}
  {shopDat : ShopRow} {out : Outcome}

/-! ## The cell -/

/-- The cell and the store agree, and the cell is open as long as some opening made it. -/
structure Kept (s : Player) : Prop where
  time : 0 ≤ s.now ∧ s.now < 2 ^ 61
  covers : ∀ o ∈ s.openings, s.now < o.until → ∃ v, s.cell = some v ∧ o.until ≤ v
  opened : ∀ v, s.cell = some v → s.now < v → ∃ o ∈ s.openings, o.until = v
  saved : ∀ v, s.cell = some v → s.stored = some v
  lapsed : s.cell = none → ∀ v, s.stored = some v → v ≤ s.now

/-- The cell is open exactly while one of the openings keeps it open. -/
theorem Kept.open_iff (hs : Kept s) :
    (∃ v, s.cell = some v ∧ s.now < v) ↔ ∃ o ∈ s.openings, s.now < o.until := by
  constructor
  · rintro ⟨v, hv, hopen⟩
    obtain ⟨o, ho, huntil⟩ := hs.opened v hv hopen
    exact ⟨o, ho, by rw [huntil]; exact hopen⟩
  · rintro ⟨o, ho, hopen⟩
    obtain ⟨v, hv, hle⟩ := hs.covers o ho hopen
    exact ⟨v, hv, lt_of_lt_of_le hopen hle⟩

theorem loadAccount_eq_some {now v : ℤ} {stored : Option ℤ} :
    Player.loadAccount now stored TimeLimitSale = some v ↔ stored = some v ∧ now < v := by
  simp only [Player.loadAccount, if_true, Option.filter_eq_some_iff, decide_eq_true_eq]

theorem loadAccount_eq_none {now v : ℤ} {stored : Option ℤ}
    (h : Player.loadAccount now stored TimeLimitSale = none) (hv : stored = some v) : v ≤ now := by
  by_contra hlive
  rw [loadAccount_eq_some.mpr ⟨hv, not_le.mp hlive⟩] at h
  cases h

theorem Kept.register (hstart : 0 ≤ start ∧ start < 2 ^ 61) : Kept (register m start user) := by
  cases hoffer : m.offer 1 with
  | none =>
      have hinit : SpecialOffer.register m start user =
          ⟨start, { user with cooldowns := Player.loadAccount start none }, none, [], []⟩ := by
        simp [SpecialOffer.register, hoffer]
      rw [hinit]
      exact ⟨hstart, nofun, nofun, nofun, nofun⟩
  | some row =>
      have hwrap : wrap (start + row.n32Limit) = start + row.n32Limit := by
        have := row.limit_range
        apply wrap_of_range <;> omega
      let opening : Opening := ⟨start, row.n32Limit, true⟩
      let stored : Option ℤ := some (start + row.n32Limit)
      have hinit : SpecialOffer.register m start user =
          ⟨start, { user with cooldowns := Player.loadAccount start stored }, stored, [opening],
            [opening]⟩ := by
        simp [SpecialOffer.register, hoffer, hwrap, stored, opening]
      have huntil : opening.until = start + row.n32Limit := rfl
      rw [hinit]
      refine ⟨hstart, ?_, ?_, ?_, ?_⟩
      · intro o ho hopen
        obtain rfl := List.mem_singleton.mp ho
        exact ⟨_, loadAccount_eq_some.mpr ⟨rfl, hopen⟩, le_rfl⟩
      · intro v hv _
        have hcell : Player.loadAccount start stored TimeLimitSale = some v := hv
        obtain ⟨hstored, -⟩ := loadAccount_eq_some.mp hcell
        refine ⟨opening, List.mem_singleton_self _, ?_⟩
        rw [huntil]
        exact Option.some.inj hstored
      · intro v hv
        have hcell : Player.loadAccount start stored TimeLimitSale = some v := hv
        exact (loadAccount_eq_some.mp hcell).1
      · intro hnone v hv
        have hcell : Player.loadAccount start stored TimeLimitSale = none := hnone
        exact loadAccount_eq_none hcell hv

/-- `setValue` raises the cell to the end that it is given, and the store with it. -/
theorem setValue_cases (hs : Kept s) (htime : time < 2 ^ 62) :
    (1 ≤ time ∧ (∀ v ∈ s.cell, v < s.now + time) ∧
      (s.setValue m time).cell = some (s.now + time) ∧
      (s.setValue m time).stored = some (s.now + time)) ∨
    ((1 ≤ time → ∃ v ∈ s.cell, s.now + time ≤ v) ∧
      (s.setValue m time).cell = s.cell ∧ (s.setValue m time).stored = s.stored) := by
  have hnow := hs.time
  have hcooldowns : (s.user.cooldowns.setValue (s.clock m) 0 TimeLimitSale (some time)) =
      if time < 1 then s.user.cooldowns
      else if ∀ v ∈ s.cell, v < s.now + time then
        Function.update s.user.cooldowns TimeLimitSale (some (s.now + time))
      else s.user.cooldowns := by
    by_cases hsmall : time < 1
    · simp [Cooldowns.setValue, Cooldowns.setTime, hsmall]
    · have hwrap : wrap (s.now + time) = s.now + time := by
        apply wrap_of_range <;> omega
      cases hcell : s.user.cooldowns TimeLimitSale with
      | none =>
          simp [Cooldowns.setValue, Cooldowns.setTime, hsmall, hcell, Player.clock, Player.cell,
            hwrap]
      | some v =>
          simp [Cooldowns.setValue, Cooldowns.setTime, hsmall, hcell, Player.clock, Player.cell,
            hwrap]
  unfold Player.setValue
  rw [hcooldowns]
  by_cases hsmall : time < 1
  · right
    refine ⟨fun h => absurd h (not_le.mpr hsmall), ?_, ?_⟩
    · simp [hsmall, Player.cell]
    · simp [hsmall, Player.cell]
  · by_cases hraise : ∀ v ∈ s.cell, v < s.now + time
    · left
      have hnew : some (s.now + time) ≠ s.cell := by
        intro heq
        exact absurd (hraise (s.now + time) heq.symm) (lt_irrefl _)
      refine ⟨not_lt.mp hsmall, hraise, ?_, ?_⟩
      · rw [if_neg hsmall, if_pos hraise]
        simp [Player.cell]
      · rw [if_neg hsmall, if_pos hraise]
        simp [hnew]
    · right
      refine ⟨fun _ => ?_, ?_, ?_⟩
      · push Not at hraise
        exact hraise
      · rw [if_neg hsmall, if_neg hraise]
        rfl
      · rw [if_neg hsmall, if_neg hraise]
        exact if_pos rfl

/-- An opening is noted, and its end given to the cell. -/
theorem Kept.open (hs : Kept s) {o : Opening} {since : List Opening} (htime : time < 2 ^ 62)
    (huntil : if 1 ≤ time then o.until = s.now + time else o.until ≤ s.now) :
    Kept { s.setValue m time with openings := o :: s.openings, since } := by
  obtain ⟨hone, hraise, hcell, hstored⟩ | ⟨hheld, hcell, hstored⟩ := setValue_cases hs htime
  · rw [if_pos hone] at huntil
    refine ⟨hs.time, ?_, ?_, ?_, ?_⟩
    · intro o' ho' hopen
      refine ⟨_, hcell, ?_⟩
      obtain rfl | ho' := List.mem_cons.mp ho'
      · exact huntil.le
      · obtain ⟨v, hv, hle⟩ := hs.covers o' ho' hopen
        exact hle.trans (hraise v hv).le
    · intro v hv _
      obtain rfl := Option.some.inj (hcell.symm.trans hv)
      exact ⟨o, List.mem_cons_self, huntil⟩
    · intro v hv
      obtain rfl := Option.some.inj (hcell.symm.trans hv)
      exact hstored
    · intro hnone
      have hcontra := hcell.symm.trans hnone
      cases hcontra
  · refine ⟨hs.time, ?_, ?_, ?_, ?_⟩
    · intro o' ho' hopen
      obtain rfl | ho' := List.mem_cons.mp ho'
      · have hopen' : s.now < o'.until := hopen
        by_cases hone : 1 ≤ time
        · rw [if_pos hone] at huntil
          obtain ⟨v, hv, hle⟩ := hheld hone
          exact ⟨v, hcell.trans hv, huntil.trans_le hle⟩
        · rw [if_neg hone] at huntil
          omega
      · obtain ⟨v, hv, hle⟩ := hs.covers o' ho' hopen
        exact ⟨v, hcell.trans hv, hle⟩
    · intro v hv hopen
      obtain ⟨o', ho', hv'⟩ := hs.opened v (hcell.symm.trans hv) hopen
      exact ⟨o', List.mem_cons_of_mem o ho', hv'⟩
    · intro v hv
      exact hstored.trans (hs.saved v (hcell.symm.trans hv))
    · intro hnone v hv
      exact hs.lapsed (hcell.symm.trans hnone) v (hstored.symm.trans hv)

/-- A change that leaves the clock, the cell, the store and the openings alone. -/
theorem Kept.same (hs : Kept s) (hnow : s'.now = s.now) (hcell : s'.cell = s.cell)
    (hstored : s'.stored = s.stored) (hopenings : s'.openings = s.openings) : Kept s' := by
  obtain ⟨htime, hcovers, hopened, hsaved, hlapsed⟩ := hs
  rw [← hnow] at htime hcovers hopened hlapsed
  rw [← hcell] at hcovers hopened hsaved hlapsed
  rw [← hstored] at hsaved hlapsed
  rw [← hopenings] at hcovers hopened
  exact ⟨htime, hcovers, hopened, hsaved, hlapsed⟩

theorem Kept.onExp (hs : Kept s) (lv : ℤ) : Kept (s.onExp m lv) := by
  unfold Player.onExp
  split
  · cases hoffer : m.offer lv with
    | none => exact hs.same rfl rfl rfl rfl
    | some row =>
        have hrange := row.limit_range
        have hnow := hs.time
        have hwrap : wrap (s.now + row.n32Limit) = s.now + row.n32Limit := by
          apply wrap_of_range <;> omega
        have hopen : Kept { s.setValue m (wrap (s.now + row.n32Limit)) with
            openings := ⟨s.now, row.n32Limit, false⟩ :: s.openings
            since := ⟨s.now, row.n32Limit, false⟩ :: s.since } := by
          apply hs.open
          · rw [hwrap]
            omega
          · rw [hwrap]
            simp only [Opening.until, Bool.false_eq_true, if_false]
            split <;> omega
        exact hopen.same rfl rfl rfl rfl
  · exact hs

/-- A login reads the cell from the store, if it is open. -/
theorem Kept.reload (hs : Kept s) (lv : ℤ) :
    Kept { s with
      user := { s.user with cooldowns := Player.loadAccount s.now s.stored, level := lv } } where
  time := hs.time
  covers o ho hopen := by
    obtain ⟨v, hv, hle⟩ := hs.covers o ho hopen
    exact ⟨v, loadAccount_eq_some.mpr ⟨hs.saved v hv, lt_of_lt_of_le hopen hle⟩, hle⟩
  opened v hv hopen := by
    have hcell : Player.loadAccount s.now s.stored TimeLimitSale = some v := hv
    obtain ⟨hstored, -⟩ := loadAccount_eq_some.mp hcell
    cases hold : s.cell with
    | none => exact absurd (hs.lapsed hold v hstored) (not_le.mpr hopen)
    | some v' =>
        obtain rfl := Option.some.inj ((hs.saved v' hold).symm.trans hstored)
        exact hs.opened v' hold hopen
  saved v hv := by
    have hcell : Player.loadAccount s.now s.stored TimeLimitSale = some v := hv
    exact (loadAccount_eq_some.mp hcell).1
  lapsed hnone v hv := by
    have hcell : Player.loadAccount s.now s.stored TimeLimitSale = none := hnone
    exact loadAccount_eq_none hcell hv

/-! ## A purchase leaves the cell alone -/

/-- What the user keeps while goods are handed out, whatever the goods are. -/
structure Handed (u u' : User) : Prop where
  cooldowns : u'.cooldowns = u.cooldowns
  exploretimes : u'.account.exploretimes = u.account.exploretimes
  buyboxtimes : u'.account.buyboxtimes = u.account.buyboxtimes
  refreshtime : u'.account.refreshtime = u.account.refreshtime

theorem Handed.trans {u u' u'' : User} (h : Handed u u') (h' : Handed u' u'') : Handed u u'' where
  cooldowns := h'.cooldowns.trans h.cooldowns
  exploretimes := h'.exploretimes.trans h.exploretimes
  buyboxtimes := h'.buyboxtimes.trans h.buyboxtimes
  refreshtime := h'.refreshtime.trans h.refreshtime

theorem Handed.of_grants {u u' : User} (h : AgentService.UserGrants u u') : Handed u u' :=
  ⟨h.cooldowns, by rw [h.account], by rw [h.account], by rw [h.account]⟩

theorem handed_creditGood {env : Env} {entry : Good × ℤ} {u u' : User} {x : Unit}
    (h : creditGood env entry u = some (x, u')) : Handed u u' := by
  obtain ⟨good, n⟩ := entry
  cases good with
  | gold =>
      cases h
      obtain ⟨hexplore, hbox, htime⟩ := AgentService.addGold_quotas u.account n
      exact ⟨rfl, hexplore, hbox, htime⟩
  | money =>
      cases h
      obtain ⟨hexplore, hbox, htime⟩ := AgentService.addMoney_quotas u.account n
      exact ⟨rfl, hexplore, hbox, htime⟩
  | card dataId => exact .of_grants (AgentService.addCard_grants h)
  | skill dataId => exact .of_grants (AgentService.addSkill_grants h)
  | opening itemId =>
      cases h
      exact ⟨rfl, rfl, rfl, rfl⟩

theorem handed_credit {env : Env} {bill : Bill} {u u' : User} {x : Unit}
    (h : credit env bill u = some (x, u')) : Handed u u' := by
  induction bill generalizing u with
  | nil =>
      cases h
      exact ⟨rfl, rfl, rfl, rfl⟩
  | cons entry bill ih =>
      obtain ⟨⟨_, u₁⟩, hentry, hbill⟩ := Option.bind_eq_some_iff.mp h
      exact (handed_creditGood hentry).trans (ih hbill)

theorem handed_addItems {env : Env} {items : IntTable} {u u' : User} {x : Unit}
    (h : addItems env items u = some (x, u')) : Handed u u' := by
  obtain ⟨bill, drawn, -, hcredit⟩ := (bills_addItemsAt 2 items).run h
  have hkept := handed_credit hcredit
  exact ⟨hkept.cooldowns, hkept.exploretimes, hkept.buyboxtimes, hkept.refreshtime⟩

theorem handed_opened {env : Env} {k : ℤ} {items : IntTable} {u u' : User}
    (h : (do draw (usePackageItem env k (← get).level) : Act IntTable) u = some (items, u')) :
    Handed u u' := by
  obtain ⟨r, -, hr⟩ := Option.map_eq_some_iff.mp h
  cases hr
  exact ⟨rfl, rfl, rfl, rfl⟩

/-- The call that should close the cell passes no time on. -/
theorem cooldowns_deliver {env : Env} {atype : ℤ} {ids : List ℤ} {u u' : User}
    (h : deliver env shopDat atype num u = some (ids, u')) : u'.cooldowns = u.cooldowns := by
  unfold deliver at h
  split_ifs at h
  · cases h
    rfl
  · obtain ⟨⟨items, u₁⟩, hopened, h₁⟩ := Option.bind_eq_some_iff.mp h
    obtain ⟨⟨_, u₂⟩, hadd, h₂⟩ := Option.bind_eq_some_iff.mp h₁
    cases h₂
    exact ((handed_opened hopened).trans (handed_addItems hadd)).cooldowns
  · obtain ⟨⟨_, u₁⟩, hadd, h₁⟩ := Option.bind_eq_some_iff.mp h
    cases h₁
    have hkept := (handed_addItems hadd).cooldowns
    exact hkept
  · obtain ⟨⟨items, u₁⟩, hopened, h₁⟩ := Option.bind_eq_some_iff.mp h
    obtain ⟨⟨_, u₂⟩, hadd, h₂⟩ := Option.bind_eq_some_iff.mp h₁
    cases h₂
    exact ((handed_opened hopened).trans (handed_addItems hadd)).cooldowns
  · cases h
    rfl

theorem cooldowns_buyShopItem {env : Env} (hrow : env.data.shopRepository id = some shopDat)
    (h : buyShopItem env user id num = some out) : out.user.cooldowns = user.cooldowns := by
  cases hc : counter env user shopDat with
  | none =>
      simp only [buyShopItem, hrow, hc, Option.bind_eq_bind, Option.bind_some,
        Option.bind_none] at h
      cases h
  | some c =>
      rw [buyShopItem_eq num hrow hc] at h
      split at h
      · cases h
        rfl
      · split at h
        · cases h
          rfl
        · obtain ⟨⟨ids, u⟩, hdeliver, hout⟩ := Option.map_eq_some_iff.mp h
          cases hout
          have hkept := cooldowns_deliver hdeliver
          exact hkept

/-! ## Every run -/

theorem Kept.step (hs : Kept s) (hstep : s.step m e = some s') : Kept s' := by
  cases e with
  | onExp lv =>
      cases hstep
      exact hs.onExp lv
  | buy id num =>
      obtain ⟨shopDat, hrow, hstep⟩ := Option.bind_eq_some_iff.mp hstep
      obtain ⟨out, hbuy, hstep⟩ := Option.bind_eq_some_iff.mp hstep
      cases hstep
      have hrow' : (s.clock m).data.shopRepository id = some shopDat := hrow
      have hcooldowns := cooldowns_buyShopItem hrow' hbuy
      exact hs.same rfl (congrFun hcooldowns TimeLimitSale) rfl rfl
  | pass seconds =>
      obtain ⟨hrange, hstep⟩ := Option.ite_none_right_eq_some.mp hstep
      cases hstep
      obtain ⟨htime, hcovers, hopened, hsaved, hlapsed⟩ := hs
      have hlater : s.now ≤ s.now + seconds := by omega
      refine ⟨⟨by simp only; omega, hrange⟩, ?_, ?_, hsaved, ?_⟩
      · intro o ho hopen
        exact hcovers o ho (lt_of_le_of_lt hlater hopen)
      · intro v hv hopen
        exact hopened v hv (lt_of_le_of_lt hlater hopen)
      · intro hnone v hv
        exact (hlapsed hnone v hv).trans hlater
  | reload lv =>
      cases hstep
      exact hs.reload lv
  | other account cards skills activitys drawn made =>
      cases hstep
      exact hs.same rfl rfl rfl rfl

theorem kept (hstart : 0 ≤ start ∧ start < 2 ^ 61) (hs : (sale m start user).Reachable s) :
    Kept s := hs.invariant (.register hstart) fun _ _ _ hs _ hstep => hs.step hstep

/-! ## When a purchase is lawful -/

/-- The balance is below the price. -/
def Short (account : Account) (shopDat : ShopRow) (num : ℤ) : Prop :=
  (shopDat.n32MoneyType = 1 ∧ account.gold < costPrice shopDat 0 num) ∨
    (shopDat.n32MoneyType = 2 ∧ account.money < costPrice shopDat 0 num)

theorem getValue_eq_zero_iff (hs : Kept s) :
    s.user.cooldowns.getValue (s.clock m) TimeLimitSale = 0 ↔
      ∀ o ∈ s.openings, o.until ≤ s.now := by
  have hnow := hs.time
  have hopen := hs.open_iff
  have hvalue : s.user.cooldowns.getValue (s.clock m) TimeLimitSale = 0 ↔
      ¬ ∃ v, s.cell = some v ∧ s.now < v := by
    unfold Cooldowns.getValue
    cases hcell : s.user.cooldowns TimeLimitSale with
    | none => simp [Player.cell, hcell]
    | some v =>
        simp only [Player.cell, hcell, Player.clock, Option.some.injEq, exists_eq_left']
        by_cases hlive : s.now < v
        · simp only [gt_iff_lt, hlive, if_true, not_true, iff_false]
          omega
        · simp [hlive]
  rw [hvalue, hopen]
  simp only [not_exists, not_and, not_lt]

theorem refused_iff {env : Env} (hoffer : shopDat.n32Type = 5) :
    Refused env user shopDat 0 num ↔ Short user.account shopDat num ∨
      (0 < shopDat.n32Limit ∧ user.cooldowns.getValue env TimeLimitSale = 0) := by
  constructor
  · rintro (⟨hm, hlt⟩ | ⟨hm, hlt⟩ | ⟨-, ht, -⟩ | ⟨hlim, -, hval⟩)
    · exact Or.inl (Or.inl ⟨hm, hlt⟩)
    · exact Or.inl (Or.inr ⟨hm, hlt⟩)
    · omega
    · exact Or.inr ⟨hlim, hval⟩
  · rintro ((⟨hm, hlt⟩ | ⟨hm, hlt⟩) | ⟨hlim, hval⟩)
    · exact .gold hm hlt
    · exact .money hm hlt
    · exact .closed hlim hoffer hval

theorem errorCode_eq_zero_iff {env : Env} (hrow : env.data.shopRepository id = some shopDat)
    (hoffer : shopDat.n32Type = 5) (h : buyShopItem env user id num = some out) :
    out.reply.errorCode = 0 ↔ ¬ Refused env user shopDat 0 num := by
  have hcounter : counter env user shopDat = some (0, 0) := by simp [counter, hoffer]
  rw [buyShopItem_eq num hrow hcounter] at h
  rw [← checks_eq_none]
  cases hchecks : checks env user shopDat 0 (costPrice shopDat 0 num) num with
  | some code =>
      rw [hchecks] at h
      cases h
      simpa using checks_ne_zero hchecks
  | none =>
      rw [hchecks] at h
      simp only [hoffer] at h
      rw [if_neg (by simp)] at h
      obtain ⟨r, -, hout⟩ := Option.map_eq_some_iff.mp h
      cases hout
      simp

/-- A purchase of an offer is lawful in a state exactly when the offer is on there, or the balance
does not suffice, or the row asks for the cell and no opening keeps the cell open. -/
theorem buyShopItem_lawful_iff (hstart : 0 ≤ start ∧ start < 2 ^ 61)
    (hs : (sale m start user).Reachable s) (hrow : m.env.data.shopRepository id = some shopDat)
    (hoffer : shopDat.n32Type = 5) (h : buyShopItem (s.clock m) s.user id num = some out) :
    (out.reply.errorCode = 0 → s.Offered) ↔
      s.Offered ∨ Short s.user.account shopDat num ∨
        (0 < shopDat.n32Limit ∧ ∀ o ∈ s.openings, o.until ≤ s.now) := by
  have hrow' : (s.clock m).data.shopRepository id = some shopDat := hrow
  rw [errorCode_eq_zero_iff hrow' hoffer h, refused_iff hoffer,
    getValue_eq_zero_iff (kept hstart hs)]
  tauto

/-! ## An offer of ten seconds -/

/-- An offer for ten seconds at level two. -/
def tenSeconds : SaleRow where
  n32Type := 5
  n32Site := 0
  n32Count := 1
  n32Price := 6
  n32MoneyType := 2
  n32Limit := 10
  n32GoodsID := 5
  n32ArenaLvUpLimit := 2
  limit_range := by decide

def stand : Market where
  env := { shelf tenSeconds.toShopRow with
    data := { (shelf tenSeconds.toShopRow).data with
      shopRepository := fun id => if id = 50001 then some tenSeconds.toShopRow else none
      itemRepository := fun _ => some { n32Type := 5, n32Retain1 := 0, szRetain3 := [] } } }
  shopRepository := [(50001, tenSeconds)]
  rows id := by
    by_cases hid : id = 50001
    · subst hid
      rfl
    · have hne : (50001 : ℤ) ≠ id := Ne.symm hid
      simp [hid, hne]

/-- The player reaches level two at 1000 and buys at once. -/
theorem buyShopItem_lawful_at_once :
    ∃ s out, (sale stand 1000 customer).run (sale stand 1000 customer).init [.onExp 2] = some s ∧
      buyShopItem (s.clock stand) s.user 50001 1 = some out ∧ out.reply.errorCode = 0 ∧
      s.Offered := by
  have hrun : ∃ s out, (sale stand 1000 customer).run (sale stand 1000 customer).init [.onExp 2] =
      some s ∧ buyShopItem (s.clock stand) s.user 50001 1 = some out ∧ out.reply.errorCode = 0 ∧
      s.now = 1000 ∧ s.since = [⟨1000, 10, false⟩] := ⟨_, _, rfl, rfl, rfl, rfl, rfl⟩
  obtain ⟨s, out, hrun, hbuy, hok, hnow, hsince⟩ := hrun
  have hoffered : s.Offered := by
    refine ⟨⟨1000, 10, false⟩, by rw [hsince]; exact List.mem_singleton_self _, ?_⟩
    rw [hnow]
    exact ⟨le_rfl, by norm_num⟩
  have hlawful := (buyShopItem_lawful_iff (by decide) (System.reachable_of_run _ hrun) rfl rfl
    hbuy).mpr (Or.inl hoffered)
  exact ⟨s, out, hrun, hbuy, hok, hlawful hok⟩

/-- An offer of ten seconds is bought after twenty. -/
theorem buyShopItem_late :
    ∃ s out, (sale stand 1000 customer).run (sale stand 1000 customer).init [.onExp 2, .pass 20] =
        some s ∧
      buyShopItem (s.clock stand) s.user 50001 1 = some out ∧ out.reply.errorCode = 0 ∧
      ¬ s.Offered := by
  have hrun : ∃ s out, (sale stand 1000 customer).run (sale stand 1000 customer).init
        [.onExp 2, .pass 20] = some s ∧
      buyShopItem (s.clock stand) s.user 50001 1 = some out ∧ out.reply.errorCode = 0 ∧
      s.now = 1020 ∧ s.since = [⟨1000, 10, false⟩] := ⟨_, _, rfl, rfl, rfl, rfl, rfl⟩
  obtain ⟨s, out, hrun, hbuy, hok, hnow, hsince⟩ := hrun
  refine ⟨s, out, hrun, hbuy, hok, ?_⟩
  rintro ⟨o, ho, hlasts⟩
  rw [hsince] at ho
  obtain rfl := List.mem_singleton.mp ho
  rw [hnow] at hlasts
  exact absurd hlasts.2 (by norm_num)

end GameServer.Shop.SpecialOffer
