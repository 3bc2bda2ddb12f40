import GameServer.AgentFrame

/-!
# Upgrades of cards and skills

`REQUEST.upgradeCardColorLevel` and `REQUEST.strengthSkill`. The checks come first, then the gold,
the fragments and the level are changed one after the other, each change with a call behind it.
-/

namespace GameServer.Upgrades

open Goods Agent Cooperative Coroutine AgentService

inductive Item
  | card (uuid : String)
  | skill (uuid : String)
  deriving DecidableEq

/-- What a request is about to do, with the values that its checks read. -/
structure Upgrade where
  item : Item
  nextId : ℤ
  gold : ℕ
  stuff : ℕ
  deriving DecidableEq

inductive Phase
  | gold | stuff | level
  deriving DecidableEq

/-- A request waits behind the change of the gold, of the fragments or of the level. -/
structure Place where
  phase : Phase
  upgrade : Upgrade
  deriving DecidableEq

variable {w : World}

/-- The history is how often a request for an item replied that all is well. -/
abbrev State (w : World) := Session w Place (Item → ℕ)

abbrev Step (w : World) (α : Type) := Code w Place (Item → ℕ) α

/-! ## Checks -/

/-- The error code, or the upgrade; `none` is an error of the interpreter. -/
def cardChecks (w : World) (user : User) (uuid : String) : Option (Except ℤ Upgrade) :=
  match Cards.getCardByUuid user.cards uuid with
  | none => some (.error (-1))
  | some card =>
      match w.heroDat (wrap (card.dataId + 1)) with
      | none => some (.error 3)
      | some _ => do
          let cardDat ← w.heroDat card.dataId
          if cardDat.n32WCardNum > card.count then some (.error 1)
          else if cardDat.n32GoldNum > (user.account.gold : ℤ) then some (.error 2)
          else some (.ok {
            item := .card uuid
            nextId := wrap (card.dataId + 1)
            gold := cardDat.n32GoldNum
            stuff := cardDat.n32WCardNum })

def skillChecks (w : World) (user : User) (uuid : String) : Option (Except ℤ Upgrade) :=
  match Skills.getSkillByUuid user.skills uuid with
  | none => some (.error (-1))
  | some skill =>
      match w.skillDat (Macro_AddSkillGrade skill.dataId 1) with
      | none => some (.error 3)
      | some _ => do
          let skillDat ← w.skillDat skill.dataId
          if skillDat.n32NeedStuff > skill.count then some (.error 1)
          else some (.ok {
            item := .skill uuid
            nextId := Macro_AddSkillGrade skill.dataId 1
            gold := 0
            stuff := skillDat.n32NeedStuff })

def checks (w : World) (user : User) : Item → Option (Except ℤ Upgrade)
  | .card uuid => cardChecks w user uuid
  | .skill uuid => skillChecks w user uuid

/-! ## Requests -/

/-- The reply that all is well. -/
def replied (item : Item) : Step w Unit :=
  modify fun s => { s with history := Function.update s.history item (s.history item + 1) }

def upgradeCardColorLevel (uuid : String) : Step w ℤ := do
  let s ← get
  match cardChecks w s.user uuid with
  | none => .raise
  | some (.error errorCode) => return errorCode
  | some (.ok p) =>
      Account.addGold ⟨.gold, p⟩ (-p.gold)
      Cards.delCardByUuid ⟨.stuff, p⟩ uuid p.stuff
      Cards.updateDataId ⟨.level, p⟩ uuid p.nextId
      replied p.item
      return 0

def strengthSkill (uuid : String) : Step w ℤ := do
  let s ← get
  match skillChecks w s.user uuid with
  | none => .raise
  | some (.error errorCode) => return errorCode
  | some (.ok p) =>
      Skills.delSkillByUuid ⟨.stuff, p⟩ uuid p.stuff
      Skills.updateDataId ⟨.level, p⟩ uuid p.nextId
      replied p.item
      return 0

/-- A request for a card is `upgradeCardColorLevel`, one for a skill is `strengthSkill`. -/
def handle : Item → Step w Unit
  | .card uuid => discard (upgradeCardColorLevel uuid)
  | .skill uuid => discard (strengthSkill uuid)

def server (w : World) : Server (State w) Place Item Empty where
  handle := handle
  outside := Empty.rec

/-- Any request at any time. -/
def anyOrder (w : World) : Server.Guard (State w) Place Item Empty where
  request _ _ _ := True
  resume _ _ _ := True
  outside _ _ _ := True

/-! ## What an upgrade should do -/

namespace Item

/-- The row that follows. -/
def next : Item → ℤ → ℤ
  | .card _, dataId => wrap (dataId + 1)
  | .skill _, dataId => Macro_AddSkillGrade dataId 1

/-- The gold that leaving a row costs. -/
def gold (w : World) : Item → ℤ → ℕ
  | .card _, dataId => (w.heroDat dataId).elim 0 (·.n32GoldNum)
  | .skill _, _ => 0

/-- The fragments that leaving a row costs. -/
def stuff (w : World) : Item → ℤ → ℕ
  | .card _, dataId => (w.heroDat dataId).elim 0 (·.n32WCardNum)
  | .skill _, dataId => (w.skillDat dataId).elim 0 (·.n32NeedStuff)

/-- What `n` levels from a row on cost, each of them once. -/
def cost (x : Item) (price : ℤ → ℕ) (dataId : ℤ) (n : ℕ) : ℕ :=
  ((List.range n).map fun i => price (x.next^[i] dataId)).sum

end Item

/-- The row and the fragments of an item. -/
structure Held where
  dataId : ℤ
  count : ℤ
  deriving DecidableEq

def held (s : State w) : Item → Option Held
  | .card uuid => (Cards.getCardByUuid s.user.cards uuid).map fun v => ⟨v.dataId, v.count⟩
  | .skill uuid => (Skills.getSkillByUuid s.user.skills uuid).map fun v => ⟨v.dataId, v.count⟩

/-- What the requests that wait have done for an item, added up. -/
def ahead (f : Place → ℕ) (m : Multiset Place) (x : Item) : ℕ :=
  (m.map fun place => if place.upgrade.item = x then f place else 0).sum

/-- It has raised the level and not replied yet. -/
def Place.raised (place : Place) : ℕ := if place.phase = .level then 1 else 0

/-- It has paid gold for a level that is not raised yet. -/
def Place.gold (place : Place) : ℕ := if place.phase = .level then 0 else place.upgrade.gold

/-- It has paid fragments for a level that is not raised yet. -/
def Place.stuff (place : Place) : ℕ := if place.phase = .stuff then place.upgrade.stuff else 0

/-- The gold that requests for an item took off the balance. -/
def goldPaid (s : State w) (x : Item) : ℤ :=
  (s.ledger.map fun d => if d.op.upgrade.item = x then d.amount else 0).sum

/-- The levels that the replies promise. -/
def levels (s : State w) (m : Multiset Place) (x : Item) : ℕ := s.history x + ahead Place.raised m x

/-- Each level promised for the item was gained and paid once; `s₀` is the state at the start. -/
structure Linear (s₀ s : State w) (m : Multiset Place) (x : Item) : Prop where
  item : ∀ v ∈ held s₀ x, held s x = some {
    dataId := x.next^[levels s m x] v.dataId
    count := v.count - x.cost (x.stuff w) v.dataId (levels s m x) - ahead Place.stuff m x }
  gold : ∀ v ∈ held s₀ x,
    goldPaid s x = x.cost (x.gold w) v.dataId (levels s m x) + ahead Place.gold m x
  enough : ∀ v ∈ held s x, 0 ≤ v.count

end GameServer.Upgrades
