import GameServer.Transition

/-!
# The batches of monsters that a room spawns

`SpawnNpcManager` keeps one group for each row of the room's map, and a group walks along the rows
that `n32NextBatch` links. Both updates are loops that other coroutines may cut in on: between two
entities or two groups health changes and entities are added, but only `EntityManager:update` takes
entities out and only `SpawnNpcManager:update` makes monsters. `updateMapEvent` arms itself again at
its end, so the two loops never overlap.
-/

namespace GameServer.SpawnNpc

open Transition

inductive EntityType
  | player
  | monster
  | building
  | flyObj
  | pet
  | trap
  deriving DecidableEq

/-- A row of `spawnMonsterRepository`, which asserts that every monster has its position. -/
structure Row where
  id : ℤ
  n32MapId : ℤ
  szMonsterIds : List ℤ
  szPosition : List (ℤ × ℤ)
  n32CDTime : ℤ
  n32NextBatch : ℤ
  n32Attach : ℤ
  positions : szMonsterIds.length = szPosition.length
  deriving DecidableEq

/-- `g_shareData.spawnMonsterResp`: the rows in the order of `pairs`, each under its own id. -/
structure SpawnTable where
  rows : List Row
  nodup : (rows.map Row.id).Nodup

def SpawnTable.get (resp : SpawnTable) (k : ℤ) : Option Row := resp.rows.find? (fun v => v.id = k)

structure Entity where
  serverId : ℤ
  entityType : EntityType
  Hp : ℚ
  isDead : Bool
  batch : Option ℤ
  attach : ℤ
  szLink : List ℤ
  deriving DecidableEq

/-- An entry of the `spawnList` that the clients are sent. -/
structure SpawnMonster where
  monsterId : ℤ
  serverId : ℤ
  posx : ℤ
  posz : ℤ
  deriving DecidableEq

structure Group where
  dat : Row
  nextdat : Option Row
  remainTime : ℤ
  deriving DecidableEq

/-- History: what an update of `dt` found in a group. -/
inductive Visit
  | alive (group : ℕ) (dt : ℤ)
  | empty (group : ℕ) (dt : ℤ)
  | spawn (group : ℕ) (batch : Row) (spawnList : List SpawnMonster)
  deriving DecidableEq

/-- Where `updateMapEvent` stands; indices count the entries that are still to come. -/
inductive Phase
  | idle
  | entities (i : ℕ)
  | groups (i : ℕ) (dt : ℤ)
  | raised (group : ℕ)
  deriving DecidableEq

structure Room where
  groups : List Group
  entityList : List Entity
  serverId : ℤ
  phase : Phase
  history : List Visit
  deriving DecidableEq

namespace Room

/-- The rows that `init` makes groups of, in the order of the groups. -/
def batches (resp : SpawnTable) (mapId : ℤ) : List Row :=
  resp.rows.filter (fun v => v.n32MapId = mapId)

def init (resp : SpawnTable) (mapId : ℤ) : Room where
  groups := (batches resp mapId).map (fun v => { dat := v, nextdat := some v, remainTime := 0 })
  entityList := []
  serverId := 0
  phase := .idle
  history := []

def isOf (gid : ℤ) (v : Entity) : Prop := v.entityType = .monster ∧ v.batch = some gid

instance (gid : ℤ) : DecidablePred (isOf gid) := fun v => by unfold isOf; infer_instance

def getMonsterCountByGroupId (s : Room) (gid : ℤ) : ℕ := s.entityList.countP (fun v => isOf gid v)

/-- The entries of `spawnList`, the `p`-th with the `p`-th server id after the counter. -/
def spawnList (serverId : ℤ) (nextdat : Row) : List SpawnMonster :=
  (nextdat.szMonsterIds.zip nextdat.szPosition).mapIdx fun p q =>
    { monsterId := q.1, serverId := serverId + 1 + p, posx := q.2.1, posz := q.2.2 }

/-- `Imonster.create`, and the `szLink` of the batch; `getHpMax` is the maximum that `calcStats`
gives a monster of this row of `monsterRepository`. -/
def create (getHpMax : ℤ → ℚ) (nextdat : Row) (lt : List ℤ) (m : SpawnMonster) : Entity where
  serverId := m.serverId
  entityType := .monster
  Hp := getHpMax m.monsterId
  isDead := false
  batch := some nextdat.id
  attach := nextdat.n32Attach
  szLink := lt

/-- The branch that spawns `nextdat` for the `i`-th group. -/
def spawn (resp : SpawnTable) (getHpMax : ℤ → ℚ) (s : Room) (i : ℕ) (nextdat : Row) : Room :=
  let ret := spawnList s.serverId nextdat
  { s with
    groups := s.groups.set i
      { dat := nextdat
        nextdat := resp.get nextdat.n32NextBatch
        remainTime := nextdat.n32CDTime * 1000 }
    entityList := s.entityList ++ ret.map (create getHpMax nextdat (ret.map SpawnMonster.serverId))
    serverId := s.serverId + nextdat.szMonsterIds.length
    history := .spawn i nextdat ret :: s.history }

/-- One pass of the loop of `SpawnNpcManager:update`; `v.nextdat.id` is read before the time is. -/
def visit (resp : SpawnTable) (getHpMax : ℤ → ℚ) (s : Room) (i : ℕ) (dt : ℤ) (v : Group) : Room :=
  if s.getMonsterCountByGroupId v.dat.id = 0 then
    match v.nextdat with
    | none => { s with phase := .raised i }
    | some nextdat =>
      if v.remainTime ≤ 0 then { s.spawn resp getHpMax i nextdat with phase := .groups i dt }
      else
        { s with
          groups := s.groups.set i { v with remainTime := v.remainTime - dt }
          phase := .groups i dt
          history := .empty i dt :: s.history }
  else { s with phase := .groups i dt, history := .alive i dt :: s.history }

/-- What `EntityManager:update` takes out after `v:update(dt)`. -/
def gone (v : Entity) : Prop :=
  ((v.entityType = .monster ∨ v.entityType = .pet) ∧ v.Hp ≤ 0) ∨
    (v.entityType = .flyObj ∧ v.isDead = true)

instance : DecidablePred gone := fun v => by unfold gone; infer_instance

end Room

inductive Label
  | updateEntities
  | entity
  | updateGroups (dt : ℤ)
  | group
  | done
  | setHp (k : ℕ) (Hp : ℚ)
  | setDead (k : ℕ)
  | addEntity (v : Entity)
  | assin_server_id
  deriving DecidableEq

namespace Room

/-- `entity` and `group` are the passes of the two loops, after what `v:update` did to the room; the
last four labels are everything else that runs in a room. -/
def step (resp : SpawnTable) (getHpMax : ℤ → ℚ) (s : Room) : Label → Option Room
  | .updateEntities =>
    if s.phase = .idle then some { s with phase := .entities s.entityList.length } else none
  | .entity =>
    match s.phase with
    | .entities (i + 1) =>
      (s.entityList[i]?).map fun v =>
        { s with
          entityList := if gone v then s.entityList.eraseIdx i else s.entityList
          phase := .entities i }
    | _ => none
  | .updateGroups dt =>
    if s.phase = .idle then some { s with phase := .groups s.groups.length dt } else none
  | .group =>
    match s.phase with
    | .groups (i + 1) dt => (s.groups[i]?).map (s.visit resp getHpMax i dt)
    | _ => none
  | .done =>
    match s.phase with
    | .entities 0 => some { s with phase := .idle }
    | .groups 0 _ => some { s with phase := .idle }
    | _ => none
  | .setHp k Hp =>
    some { s with entityList := s.entityList.modify k fun v => { v with Hp := Hp } }
  | .setDead k =>
    some { s with entityList := s.entityList.modify k fun v => { v with isDead := true } }
  | .addEntity v =>
    if v.entityType = .monster then none else some { s with entityList := s.entityList ++ [v] }
  | .assin_server_id => some { s with serverId := s.serverId + 1 }

end Room

def room (resp : SpawnTable) (getHpMax : ℤ → ℚ) (mapId : ℤ) : System Room Label where
  init := Room.init resp mapId
  step := Room.step resp getHpMax

end GameServer.SpawnNpc
