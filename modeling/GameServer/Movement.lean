import GameServer.Terrain

/-!
# One tick of a walking entity

`onMove3` takes an entity towards its target in a straight line, aside of what is in the way, or
along a path of cells. The length of a vector needs a root and a turn needs a sine, so `normalize`
and `rot` are parameters. What an error ends is `none`, and so is a path search that does not
return.
-/

namespace GameServer.Movement

open Pathfinding (Map map_get)
open Terrain

structure Geometry where
  normalize : Vector3 → Vector3
  rot : ℚ → Vector3 → Vector3

structure Mover extends Body where
  dir : Vector3
  target : Option Target
  moveNode1 : Vector3
  moveNode2 : Vector3
  moveSpeed : ℚ
  hp : ℚ
  useAStar : Bool
  pathMove : List ℤ
  pathNodeIndex : ℤ

structure Scene where
  map : Map
  self : Mover

namespace Mover

/-- `self.pathMove[i]` -/
def node (self : Mover) (i : ℤ) : Option ℤ :=
  if 1 ≤ i then self.pathMove[(i - 1).toNat]? else none

def getMoveTarget (self : Mover) (target : Target) : Vector3 :=
  if self.moveNode1.x > 0 then self.moveNode1
  else if self.moveNode2.x > 0 then self.moveNode2
  else target.pos

/-- Where the tick heads for. -/
def aim (self : Mover) (target : Target) : Option Vector3 :=
  if self.useAStar then do
    let x ← self.node self.pathNodeIndex
    let z ← self.node (self.pathNodeIndex + 1)
    return ⟨GRID_2_POS x, 0, GRID_2_POS z⟩
  else return ⟨(self.getMoveTarget target).x, 0, (self.getMoveTarget target).z⟩

/-- The place that the tick gets to in a direction. -/
def ahead (self : Mover) (dir : Vector3) (dt : ℚ) : Vector3 :=
  (dir.mul_num (self.moveSpeed * dt)).add self.pos

def stand (self : Mover) : Mover :=
  if self.hp ≤ 0 then self else { self with pathNodeIndex := -1, useAStar := false, pathMove := [] }

/-- `clearTarget(1)` -/
def clearTarget (self : Mover) : Mover :=
  match self.target with
  | some (.transform _) => { self.stand with target := none }
  | _ => self

/-- A node that is reached. -/
def reach (node pos : Vector3) : Vector3 :=
  if |pos.x - node.x| < 3 / 10 ∧ |pos.z - node.z| < 3 / 10 then { node with x := 0 } else node

end Mover

namespace Scene

def isLegalGrid (s : Scene) (pos : Vector3) : Bool × Scene :=
  let r := s.self.toBody.isLegalGrid s.map s.self.useAStar pos
  (r.1, { s with map := r.2 })

def pathFind (s : Scene) (target : Target) : Option (Scene × Bool) :=
  (s.self.toBody.pathFind s.map target target.pos.x target.pos.z).map fun r =>
    ({ map := r.1
       self := { s.self with
         pathMove := r.2, pathNodeIndex := 3, useAStar := decide (3 < r.2.length) } },
      decide (3 < r.2.length))

def setPos (s : Scene) (pos : Vector3) : Scene :=
  let map :=
    if s.self.hp ≤ 0 then s.map
    else { s.self.toBody with pos }.mark (s.self.mark s.map 0) 1
  let self :=
    if s.self.moveNode1.x > 0 then { s.self with moveNode1 := Mover.reach s.self.moveNode1 pos }
    else if s.self.moveNode2.x > 0 then
      { s.self with moveNode2 := Mover.reach s.self.moveNode2 pos }
    else s.self
  { map, self := { self with pos } }

def stand (s : Scene) : Scene := { s with self := s.self.stand }

variable (geo : Geometry)

/-- The turns aside, until one leads to a legal place: the last place that was tried, and whether it
is legal. -/
def slide (dt : ℚ) : List ℚ → Scene → Vector3 → Scene × Vector3 × Bool
  | [], s, dst => (s, dst, false)
  | angle :: rest, s, _ =>
      let dir := geo.rot angle s.self.dir
      let dst := s.self.ahead dir dt
      let r := s.isLegalGrid dst
      if r.1 then ({ r.2 with self := { r.2.self with dir } }, dst, true) else slide dt rest r.2 dst

/-- The end of the tick: the next node of the path or the end of the way, and the new place. -/
def arrive (s : Scene) (dst : Vector3) (legal_pos : Bool) : Scene :=
  let self :=
    if s.self.useAStar then
      let reached := s.self.node s.self.pathNodeIndex = some (POS_2_GRID dst.x) ∧
        s.self.node (s.self.pathNodeIndex + 1) = some (POS_2_GRID dst.z)
      let self :=
        if reached then { s.self with pathNodeIndex := s.self.pathNodeIndex + 2 } else s.self
      if self.pathNodeIndex ≥ self.pathMove.length then self.stand.clearTarget else self
    else
      match s.self.target with
      | some (.transform pos) =>
          if |s.self.pos.x - pos.x| < 2 / 100 ∧ |s.self.pos.z - pos.z| < 2 / 100 then
            s.self.stand.clearTarget
          else s.self
      | _ => s.self
  let s := { s with self }
  if legal_pos then s.setPos dst else s

/-- What follows when the place ahead is not legal. -/
def turnAside (s : Scene) (target : Target) (dst : Vector3) (dt : ℚ) : Option Scene :=
  let angles := if isWall s.map dst.x dst.z then [] else [60, 90, 120]
  let r := slide geo dt angles s dst
  if r.2.2 then some (r.1.arrive r.2.1 true)
  else do
    let (s, nearBy) ← r.1.pathFind target
    if nearBy then return s.arrive r.2.1 false else return s.stand

def onMove3 (s : Scene) (dt : ℚ) : Option Scene :=
  let dt := dt / 1000
  if s.self.moveSpeed ≤ 0 then some s
  else
    match s.self.target with
    | none => some s.stand
    | some target => do
        let aim ← s.self.aim target
        let dir := geo.normalize (aim.sub s.self.pos)
        let s := { s with self := { s.self with dir } }
        let dst := s.self.ahead dir dt
        let first := s.isLegalGrid dst
        if s.self.useAStar ∧ first.1 = false then
          let (s, nearBy) ← first.2.pathFind target
          if nearBy then return s else return s.stand
        else
          let r := if s.self.useAStar then first.2.isLegalGrid dst else first
          if r.1 then return r.2.arrive dst true else r.2.turnAside geo target dst dt

end Scene

end GameServer.Movement
