import GameServer.MonsterKill
import GameServer.Plane

/-!
# The entities that a skill selects and the entities that it affects

Entities are objects; `source ~= _ev` compares references. The numbers are of an ordered field with
an exact root, and `deg_acos` is `math.deg(math.acos(c))`, which is no number outside of [-1, 1].
What no number is compared with is false.
-/

namespace GameServer.Targets

open MonsterKill (CampType)
open Plane (Vector3 Root)

/-- The names that `getType` gives; a flying object is a `transform`. -/
inductive ClassName
  | transform
  | IMapPlayer
  | IMonster
  | IBuilding
  | IPet
  deriving DecidableEq

inductive EntityType
  | player
  | monster
  | building
  | flyObj
  | pet
  | trap
  deriving DecidableEq

/-- What the selection reads of the objects. -/
structure Objects (E K : Type) where
  getType : E → ClassName
  entityType : E → EntityType
  camp : E → Option CampType
  getHp : E → K
  pos : E → Vector3 K
  serverId : E → ℤ

/-- `szSelectRange` and `szAffectRange` by their first entry, with the numbers behind it. -/
inductive Range (K : Type)
  | single
  | circle (radius : K) (target_uplimit select_mod : ℤ)
  | sector (r theta : K)
  | rectangle (h w : K)
  | other
  deriving DecidableEq

structure SkillData (K : Type) where
  n32SkillType : ℤ
  n32SkillTargetType : ℤ
  n32SelectTargetType : ℤ
  n32AffectTargetType : ℤ
  szSelectRange : Range K
  szAffectRange : Range K

/-- The order functions that `table.sort` accepts. -/
structure OrderFunction {α : Type} (lt : α → α → Bool) : Prop where
  asymm : ∀ a b, lt a b = true → lt b a = false
  trans : ∀ a b c, lt b a = false → lt c b = false → lt c a = false

/-- `table.sort` leaves some order of the entries in which none precedes the one before it. -/
structure TableSort (α : Type) where
  sort : (α → α → Bool) → List α → List α
  perm : ∀ lt l, (sort lt l).Perm l
  sorted : ∀ lt, OrderFunction lt → ∀ l, (sort lt l).Pairwise fun a b => lt b a = false

/-! ## Areas -/

section Areas

variable {K : Type} [Field K] [LinearOrder K] (root : Root K) (deg_acos : K → K)

/-- One round of the loop over the edges: whether the ray to the right crosses the edge. -/
def crosses (p p1 p2 : Vector3 K) : Bool :=
  if p1.z = p2.z then false
  else if p.z ≥ max p1.z p2.z then false
  else if p.z < min p1.z p2.z then false
  else (p.z - p1.z) * (p2.x - p1.x) / (p2.z - p1.z) + p1.x > p.x

def ptInRect (p : Vector3 K) (rectPts : Fin 4 → Vector3 K) : Bool :=
  let ncross := (List.finRange 4).countP fun i => crosses p (rectPts i) (rectPts (i + 1))
  ncross % 2 = 1

/-- At the center itself the direction is no number. -/
def ptInSector (pt center udir : Vector3 K) (r theta : K) : Bool :=
  let dx := pt.x - center.x
  let dz := pt.z - center.z
  let length := root.sqrt (dx * dx + dz * dz)
  if length > r then false
  else if length = 0 then false
  else
    let c := dx / length * udir.x + dz / length * udir.z
    if c < -1 ∨ 1 < c then false else deg_acos c ≤ theta

/-- The corners of the rectangle in front of the source. -/
def corners (source target : Vector3 K) (h w : K) : Fin 4 → Vector3 K :=
  let dir1 := (target.sub source).normalize root
  let dir2 : Vector3 K := ⟨dir1.z, -dir1.x⟩
  let pos2 := source.add (dir1.mul_num h)
  ![source.add (dir2.mul_num w), pos2.add (dir2.mul_num w), pos2.sub (dir2.mul_num w),
    source.sub (dir2.mul_num w)]

end Areas

/-! ## The entity manager -/

section Manager

variable {E K : Type} [DecidableEq E] [Field K] [LinearOrder K] (o : Objects E K) (root : Root K)
  (deg_acos : K → K) (entityList : List E)

/-- `v:isKind(entity)` -/
def isKind (v entity : E) : Bool :=
  match o.camp entity with
  | none => true
  | some camp =>
      if o.getType entity = .IBuilding then true
      else if o.entityType entity = .trap then true
      else if o.camp v = some .KIND ∨ camp = .KIND then true
      else if o.camp v = some .BAD ∨ camp = .BAD then false
      else o.camp v = some camp

/-- The tests of the loop in `getTypeEntitys`. -/
def isTarget (source : E) (n32SkillType type : ℤ) (ev : E) : Bool :=
  if o.getType ev = .IMapPlayer ∨ o.getType ev = .IPet ∨ o.getType ev = .IMonster ∨
      o.getType ev = .IBuilding then
    if o.getHp ev > 0 ∧ (o.entityType ev = .building ∧ n32SkillType = 0 ∨
        o.entityType ev ≠ .building) ∧ o.entityType ev ≠ .trap then
      if (type = 1 ∨ type = 7) ∧ isKind o source ev = true then true
      else if type = 2 ∧ isKind o source ev = true ∧ source ≠ ev then true
      else if (type = 3 ∨ type = 6) ∧ isKind o source ev = false then true
      else if type = 4 ∧ source ≠ ev then true
      else type = 5
    else false
  else false

def getTypeEntitys (source : E) (skilldata : SkillData K) (isSelect : Bool) : List E :=
  let type :=
    if isSelect = false then skilldata.n32AffectTargetType else skilldata.n32SelectTargetType
  if type = 0 then [source]
  else entityList.filter (isTarget o source skilldata.n32SkillType type)

variable {o entityList} in
theorem nodup_getTypeEntitys {source : E} {skilldata : SkillData K} {isSelect : Bool}
    (h : entityList.Nodup) : (getTypeEntitys o entityList source skilldata isSelect).Nodup := by
  unfold getTypeEntitys
  dsimp only
  split_ifs
  · exact List.nodup_singleton source
  · exact h.filter _
  · exact List.nodup_singleton source
  · exact h.filter _

/-- The loop that copies as long as `num` is within the limit. -/
def counted (target_uplimit : ℤ) : ℤ → List E → List E
  | _, [] => []
  | num, v :: rest =>
      if num ≤ target_uplimit ∨ target_uplimit = -1 then
        v :: counted target_uplimit (num + 1) rest
      else counted target_uplimit num rest

/-- The entries of `tSelects`: the entities in the circle with their distances. -/
def inCircle (tgt : E) (radius : K) (typeTargets : List E) : List (K × E) :=
  typeTargets.filterMap fun v =>
    let disLen := ((o.pos tgt).sub (o.pos v)).length root
    if disLen ≤ radius then some (disLen, v) else none

/-- The order function of the mode: the farthest first for mode 1, the nearest first otherwise. -/
def precedes (select_mod : ℤ) (a b : K × E) : Bool :=
  if select_mod = 1 then a.1 > b.1 else a.1 < b.1

def getSkillSelectsEntitys (table : TableSort (K × E)) (source target : E)
    (skilldata : SkillData K) (extra : Vector3 K) : List E :=
  let tgt := if skilldata.n32SkillTargetType = 0 then source else target
  let typeTargets := getTypeEntitys o entityList source skilldata true
  match skilldata.szSelectRange with
  | .single => if o.getType tgt ≠ .transform ∧ o.getHp tgt > 0 ∨ o.getType tgt = .transform then
      [tgt] else []
  | .circle radius target_uplimit select_mod =>
      let tSelects := table.sort (precedes select_mod) (inCircle o root tgt radius typeTargets)
      counted target_uplimit 1 (tSelects.map Prod.snd)
  | .sector r theta => typeTargets.filter fun v =>
      ptInSector root deg_acos (o.pos v) (o.pos source) extra r theta
  | .rectangle h w => typeTargets.filter fun v =>
      ptInRect (o.pos v) (corners root (o.pos source) (o.pos target) h w)
  | .other => []

/-- The test of the double loop for the centre `sv` and the candidate `tv`. -/
def covers (skilldata : SkillData K) (extra : Vector3 K) (sv tv : E) : Bool :=
  match skilldata.szAffectRange with
  | .single => sv = tv
  | .circle radius _ _ => ((o.pos tv).sub (o.pos sv)).length root ≤ radius
  | .sector r theta =>
      if o.serverId tv = o.serverId sv then true
      else ptInSector root deg_acos (o.pos tv) (o.pos sv) extra r theta
  | _ => false

/-- The candidates: for the types 6 and 7 without those that were selected. -/
def candidates (source : E) (selects : List E) (skilldata : SkillData K) : List E :=
  let typeTargets := getTypeEntitys o entityList source skilldata false
  if skilldata.n32AffectTargetType = 6 ∨ skilldata.n32AffectTargetType = 7 then
    typeTargets.filter fun t => t ∉ selects
  else typeTargets

def getSkillAffectEntitys (source : E) (selects : List E) (skilldata : SkillData K)
    (extra : Vector3 K) : List E :=
  if skilldata.n32AffectTargetType = 0 then [source]
  else (candidates o entityList source selects skilldata).flatMap fun tv =>
    selects.filterMap fun sv =>
      if covers o root deg_acos skilldata extra sv tv = true then some tv else none

end Manager

/-! ## Effects -/

/-- What `trgggerAffect` asks: of the source whether it misses, and of the target in each round its
states and whether it dodges. -/
structure Checks where
  missed : Bool
  Invincible : ℕ → Bool
  OutSkill : ℕ → Bool
  dodged : ℕ → Bool

section Effects

variable {E : Type} [DecidableEq E] (checks : Checks) (source : E) (n32SkillType : ℤ)

/-- The targets on which the loop builds the affects, from round `i` on. -/
def built : ℕ → List E → List E
  | _, [] => []
  | i, v :: rest =>
      if checks.Invincible i = true ∧ source ≠ v then built (i + 1) rest
      else if checks.OutSkill i = true ∧ n32SkillType = 0 then built (i + 1) rest
      else if n32SkillType = 0 ∧ checks.dodged i = true then built (i + 1) rest
      else v :: built (i + 1) rest

def trgggerAffect (targets : List E) : List E :=
  if n32SkillType = 0 ∧ checks.missed = true then [] else built checks source n32SkillType 0 targets

end Effects

end GameServer.Targets
