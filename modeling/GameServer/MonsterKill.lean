import GameServer.Battle
import GameServer.HateList

/-!
# Monsters that are killed and who is paid

Every loss of health of a monster is hate of its source; when the health is gone, the hate of the
dead is taken from all monsters in `entityList`, and the top of the list that is left is paid.
Entities are known by their server ids, those that were removed from `entityList` too: affects keep
them as sources. Amounts, health and hate are doubles. What the affects of an entity do when it dies
is not hate, since a dead monster takes none.
-/

namespace GameServer.MonsterKill

open Hates Transition

inductive CampType
  | BAD
  | KIND
  | MONSTER
  | RED
  | BLUE
  deriving DecidableEq

inductive EntityType
  | player
  | monster
  | building
  | pet
  | trap
  deriving DecidableEq

/-- What an entity is, by the name that `getType` gives. -/
inductive Kind
  | IMapPlayer (isRed : Bool)
  | IMonster (n32Gold n32Exp : ℤ)
  | IBuilding (camp : CampType)
  | IPet (master : ℤ) (camp : CampType) (n32Type : ℤ)
  deriving DecidableEq

namespace Kind

def entityType : Kind → EntityType
  | IMapPlayer _ => .player
  | IMonster _ _ => .monster
  | IBuilding _ => .building
  | IPet _ _ n32Type => if n32Type = 2 then .building else if n32Type = 4 then .trap else .pet

def camp : Kind → CampType
  | IMapPlayer isRed => if isRed then .RED else .BLUE
  | IMonster _ _ => .MONSTER
  | IBuilding camp => camp
  | IPet _ camp _ => camp

def isBuilding : Kind → Bool
  | IBuilding _ => true
  | _ => false

/-- `v:isKind(entity)` -/
def isKind (v entity : Kind) : Bool :=
  if entity.isBuilding = true ∨ entity.entityType = .trap then true
  else if v.camp = .KIND ∨ entity.camp = .KIND then true
  else if v.camp = .BAD ∨ entity.camp = .BAD then false
  else v.camp = entity.camp

end Kind

structure Purse where
  gold : ℤ
  exp : ℤ
  deriving DecidableEq

/-- History: what `IMonster.onDead` found, and the purses behind it unless it raised an error. -/
structure Kill where
  monster : ℤ
  n32Gold : ℤ
  n32Exp : ℤ
  topHateId : ℤ
  kind : ℤ → Option Kind
  entityList : List ℤ
  before : ℤ → Purse
  after : Option (ℤ → Purse)

structure Room where
  kind : ℤ → Option Kind
  hp : ℤ → ℚ
  hpMax : ℤ → ℚ
  purses : ℤ → Purse
  hate : Lists
  szLink : ℤ → List ℤ
  entityList : List ℤ
  server_id : ℤ
  kills : List Kill

/-- An order in which `pairs` goes through the keys of a table. -/
structure Order where
  order : List ℤ → List ℤ
  perm : ∀ keys, (order keys).Perm keys

def ShareGoldPercent : ℚ := 2 / 5

def ShareExpPercent : ℚ := 67 / 100

namespace Room

variable (s : Room)

def getEntity (serverId : ℤ) : Option ℤ := s.entityList.find? fun v => v = serverId

def isMonster (id : ℤ) : Bool := (s.kind id).any fun kind => kind.entityType = .monster

/-- `addGold` and `addExp` -/
def pay (id gold exp : ℤ) : Room :=
  let purse := s.purses id
  { s with purses := Function.update s.purses id ⟨purse.gold + gold, purse.exp + exp⟩ }

/-- A round of the loop that shares gold and experience with the camp of the player. -/
def share (player n32Gold n32Exp : ℤ) (v : ℤ) : Room :=
  match s.kind v, s.kind player with
  | some kind, some kind' =>
    if kind.entityType = .player ∧ v ≠ player ∧ kind.isKind kind' = true then
      s.pay v ⌊(n32Gold : ℚ) * ShareGoldPercent⌋ ⌊(n32Exp : ℚ) * ShareExpPercent⌋
    else s
  | _, _ => s

/-- `player.master` for a pet. -/
def payee (player : ℤ) : ℤ :=
  match s.kind player with
  | some (.IPet master _ _) => master
  | _ => player

/-- The part of `IMonster.onDead` behind `Ientity.onDead`. -/
def reward (m n32Gold n32Exp : ℤ) : Option Room :=
  match s.getEntity (s.hate m).topHateId with
  | none => none
  | some sid =>
    let player := s.payee sid
    some (s.entityList.foldl (fun s v => s.share player n32Gold n32Exp v)
      (s.pay player n32Gold n32Exp))

/-- The hate of `Ientity.onDead`. -/
def removeHates (e : ℤ) (order : Order) : Room :=
  { s with hate := fun v =>
      if v ∈ s.entityList ∧ s.isMonster v = true then
        (s.hate v).removeHate e (order.order ((s.hate v).hateList.erase e).keys)
      else s.hate v }

def kill (m n32Gold n32Exp : ℤ) (after : Option (ℤ → Purse)) : Kill :=
  ⟨m, n32Gold, n32Exp, (s.hate m).topHateId, s.kind, s.entityList, s.purses, after⟩

def onDead (e : ℤ) (order : Order) : Room :=
  let s := s.removeHates e order
  match s.kind e with
  | some (.IMonster n32Gold n32Exp) =>
    let after := s.reward e n32Gold n32Exp
    { after.getD s with
      kills := s.kills ++ [s.kill e n32Gold n32Exp (after.map Room.purses)] }
  | _ => s

def setHp (t : ℤ) (hp : ℚ) : Room := { s with hp := Function.update s.hp t hp }

/-- `Ientity.addHp` -/
def addHpBase (t : ℤ) (hp : ℚ) (kept : Bool) (order : Order) : Room :=
  if ⌊hp⌋ = 0 then s
  else
    let lastHp := s.hp t
    let hp := Battle.newHp lastHp ⌊hp⌋ (s.hpMax t) kept
    let s := s.setHp t hp
    if 0 < lastHp ∧ hp ≤ 0 then s.onDead t order else s

/-- `self.hateList:addHate(source, hateValue)` -/
def addHate (m source : ℤ) (hateValue : ℚ) (now : ℤ) : Room :=
  let links := (s.szLink m).filter (· ∈ s.entityList)
  { s with hate := Hates.addHate m source hateValue none links now s.hate }

/-- What `IMonster.addHp` adds as hate of the source. -/
def hateOf (t : ℤ) (hp : ℚ) : Option ℚ :=
  let part := fun x : ℚ => ⌊Double.mul (s.hpMax t) (Double.round x)⌋
  if Double.add (s.hp t) hp ≤ 0 then some (Double.add (s.hp t) (part (1 / 5)))
  else if hp < 0 then
    if s.hp t = s.hpMax t then some (Double.add (-hp) (part (1 / 10))) else some (-hp)
  else none

def addHp (t : ℤ) (hp : ℚ) (source : ℤ) (kept : Bool) (now : ℤ) (order : Order) : Room :=
  match s.kind t with
  | some (.IMonster _ _) =>
    if s.hp t ≤ 0 ∧ hp ≤ 0 then s
    else
      match s.hateOf t hp with
      | some hateValue => (s.addHate t source hateValue now).addHpBase t hp kept order
      | none => s.addHpBase t hp kept order
  | some (.IMapPlayer _) => if s.hp t ≤ 0 ∧ hp ≤ 0 then s else s.addHpBase t hp kept order
  | _ => s.addHpBase t hp kept order

def recalc (t : ℤ) (hpMax : ℚ) : ℚ := Battle.recalc (s.hp t) (s.hpMax t) hpMax

def calcHpMax (t : ℤ) (hpMax : ℚ) (kept : Bool) (now : ℤ) (order : Order) : Room :=
  { s with hpMax := Function.update s.hpMax t hpMax }.addHp t (s.recalc t hpMax) t kept now order

/-- The end of the time of a pet, in its `update`. -/
def expire (e : ℤ) (order : Order) : Room :=
  match s.kind e with
  | some (.IPet _ _ _) =>
    if e ∈ s.entityList ∧ 0 < s.hp e then (s.setHp e (-1)).onDead e order else s
  | _ => s

/-- `EntityManager.update` removes dead monsters and pets. -/
def remove (e : ℤ) : Room :=
  match s.kind e with
  | some kind =>
    if (kind.entityType = .monster ∨ kind.entityType = .pet) ∧ s.hp e ≤ 0 then
      { s with entityList := s.entityList.erase e }
    else s
  | none => s

/-- A new entity gets the next server id. -/
def add (kind : Kind) (hp hpMax : ℚ) : Room :=
  let sid := s.server_id + 1
  { s with
    server_id := sid
    kind := Function.update s.kind sid (some kind)
    hp := Function.update s.hp sid hp
    hpMax := Function.update s.hpMax sid hpMax
    purses := Function.update s.purses sid ⟨0, 0⟩
    hate := Function.update s.hate sid ctor
    szLink := Function.update s.szLink sid []
    entityList := s.entityList ++ [sid] }

/-- `createPet` raises an error for a master that is no player. -/
def createPet (master n32Type : ℤ) (hp hpMax : ℚ) : Room :=
  match s.kind master with
  | some (.IMapPlayer isRed) =>
    s.add (.IPet master (Kind.IMapPlayer isRed).camp n32Type) hp hpMax
  | _ => s

end Room

/-- A row of `monsterRepository`. -/
structure Monster where
  n32Gold : ℤ
  n32Exp : ℤ
  n32Hp : ℚ
  pos : 0 < n32Hp

/-- The monsters of a batch, which are linked to each other. -/
def Room.spawn (s : Room) (batch : List Monster) : Room :=
  let made := batch.foldl (fun s mt => s.add (.IMonster mt.n32Gold mt.n32Exp) mt.n32Hp mt.n32Hp) s
  let lt := made.entityList.drop s.entityList.length
  { made with szLink := fun m => if m ∈ lt then lt else made.szLink m }

inductive Op
  | createPlayer (isRed : Bool) (hp : ℚ)
  | createBuilding (camp : CampType) (hp : ℚ)
  | createPet (master n32Type : ℤ) (hp hpMax : ℚ)
  | spawn (batch : List Monster)
  | addHp (t : ℤ) (hp : ℚ) (source : ℤ) (kept : Bool) (now : ℤ) (order : Order)
  | calcHpMax (t : ℤ) (hpMax : ℚ) (kept : Bool) (now : ℤ) (order : Order)
  | expire (e : ℤ) (order : Order)
  | remove (e : ℤ)
  /-- `NpcAI` sees a player close by. -/
  | notice (m player : ℤ) (now : ℤ)
  /-- `NpcAI` is back at its place. -/
  | clear (m : ℤ)

def Room.run (s : Room) : Op → Room
  | .createPlayer isRed hp => s.add (.IMapPlayer isRed) hp hp
  | .createBuilding camp hp => s.add (.IBuilding camp) hp hp
  | .createPet master n32Type hp hpMax => s.createPet master n32Type hp hpMax
  | .spawn batch => s.spawn batch
  | .addHp t hp source kept now order => s.addHp t hp source kept now order
  | .calcHpMax t hpMax kept now order => s.calcHpMax t hpMax kept now order
  | .expire e order => s.expire e order
  | .remove e => s.remove e
  | .notice m player now =>
    match s.kind player with
    | some (.IMapPlayer _) => if player ∈ s.entityList then s.addHate m player 1 now else s
    | _ => s
  | .clear m => { s with hate := Function.update s.hate m (s.hate m).clear }

/-- A room without entities. -/
def room : Room where
  kind _ := none
  hp _ := 0
  hpMax _ := 0
  purses _ := ⟨0, 0⟩
  hate _ := ctor
  szLink _ := []
  entityList := []
  server_id := 0
  kills := []

def system : System Room Op where
  init := room
  step s op := some (s.run op)

end GameServer.MonsterKill
