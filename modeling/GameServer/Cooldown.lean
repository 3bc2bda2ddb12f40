import GameServer.Transition

/-!
# Cooldowns of an entity

The tables of cooldowns and charges, and the casts that read and write them. Times are rational
numbers of milliseconds. An error of the interpreter is `none`; it ends the ticks of a room. `added`
and `casted` are history: what `addItem` was last given for a key, and the last cast of a skill
without a charge, each with the update time since then.
-/

namespace GameServer.Casting

structure SkillData where
  id : ℤ
  n32SkillType : ℤ
  n32CD : ℚ
  n32ChargeCount : ℤ
  n32SkillTargetType : ℤ
  n32Range : ℚ
  n32MpCost : ℚ
  n32MpCostPercent : ℚ
  n32HpCost : ℚ
  n32HpCostPercent : ℚ

/-- The skills, and whether the entity is an `IMapPlayer`. -/
structure World where
  skillRepository : ℤ → Option SkillData
  row_id : ∀ id skilldata, skillRepository id = some skilldata → skilldata.id = id
  isPlayer : Bool

/-- The levels of the skills that the entity has. -/
abbrev SkillTable := ℤ → Option ℤ

structure Cooldown where
  coolDownTable : ℤ → Option ℚ
  /-- The keys of the table. -/
  keys : List ℤ
  chargeCountTable : ℤ → Option ℤ
  added : ℤ → Option (ℚ × ℚ)

/-- `math.floor(id / 10) * 10 + 1` -/
def base (id : ℤ) : ℤ := Int.fdiv id 10 * 10 + 1

variable (w : World)

namespace Cooldown

/-- `self.coolDownTable[id] = time` -/
def put (self : Cooldown) (id : ℤ) (time : ℚ) : Cooldown :=
  { self with
    coolDownTable := Function.update self.coolDownTable id (some time)
    keys := if id ∈ self.keys then self.keys else self.keys ++ [id] }

def addItem (self : Cooldown) (skillid : ℤ) (cd : Option ℚ) : Option Cooldown := do
  let skilldata ← w.skillRepository skillid
  let cdtime := cd.getD skilldata.n32CD
  let self := self.put skillid cdtime
  return { self with
    chargeCountTable := match self.chargeCountTable skillid with
      | none => Function.update self.chargeCountTable skillid (some 0)
      | some _ => self.chargeCountTable
    added := Function.update self.added skillid (some (cdtime, 0)) }

def getChargeCount (self : Cooldown) (id : ℤ) : ℤ := (self.chargeCountTable id).getD 0

/-- The row that holds the charges: that of the level for a skill of type 2. -/
def chargeRow (skillTable : SkillTable) (skilldata : SkillData) (id : ℤ) : Option SkillData :=
  if skilldata.n32SkillType = 2 then do
    let level ← skillTable id
    if level ≥ 2 then w.skillRepository (id + level - 1) else some skilldata
  else some skilldata

/-- Where the count changes, the cooldown starts again. -/
def addChargeCount (self : Cooldown) (skillTable : SkillTable) (id : ℤ) (isReduce : Bool) :
    Option Cooldown := do
  let skilldata ← w.skillRepository id
  let id := base id
  let skilldata ← chargeRow w skillTable skilldata id
  if isReduce then
    let count ← self.chargeCountTable id
    if count > 0 then
      addItem w { self with
        chargeCountTable := Function.update self.chargeCountTable id (some (count - 1)) } id none
    else return self
  else
    match self.chargeCountTable id with
    | none => return self
    | some count =>
        if count < skilldata.n32ChargeCount then
          addItem w { self with
            chargeCountTable :=
              Function.update self.chargeCountTable id (some (count + 1)) } id none
        else return self

/-- What `update` does to a cell that is not 0. -/
def elapse (self : Cooldown) (id : ℤ) (dt : ℚ) : Option Cooldown := do
  let time ← self.coolDownTable id
  return self.put id (if time - dt ≤ 0 then 0 else time - dt)

/-- One round of the loop of `update`, with the time that passes for the key. -/
def updateKey (skillTable : SkillTable) (dt : ℚ) (self : Cooldown) (k : ℤ) : Option Cooldown := do
  let time ← self.coolDownTable k
  let self ←
    if time ≠ 0 then do
      let self ←
        if w.isPlayer ∧ time > 0 ∧ time - dt ≤ 0 then self.addChargeCount w skillTable k false
        else some self
      self.elapse k dt
    else some self
  return { self with
    added := Function.update self.added k ((self.added k).map fun e => (e.1, e.2 + dt)) }

/-- The keys in the order of `pairs`. -/
def update (self : Cooldown) (skillTable : SkillTable) (dt : ℚ) (order : List ℤ) :
    Option Cooldown := order.foldlM (updateKey w skillTable dt) self

def getCdTime (self : Cooldown) (id : ℤ) : ℚ := (self.coolDownTable (base id)).getD 0

/-- The part of `spell.onReady` for a skill whose costs are paid. -/
def onReady (self : Cooldown) (skillTable : SkillTable) (skilldata : SkillData) (time : ℚ) :
    Option Cooldown :=
  if skilldata.n32SkillType = 0 then self.addItem w skilldata.id (some time)
  else if self.getChargeCount skilldata.id > 0 then
    self.addChargeCount w skillTable skilldata.id true
  else self.addItem w skilldata.id none

end Cooldown

/-! ## Casting -/

inductive ErrorCode
  | EC_None
  | EC_Spell_MpLow
  /-- `-1` -/
  | noSkill
  | EC_Spell_SkillIsRunning
  | EC_Spell_SkillIsInCd
  | EC_Spell_NoTarget
  | EC_Spell_TargetOutDistance
  | EC_Spell_Controled
  | EC_Dead
  | EC_Spell_NoBuilding
  deriving DecidableEq

/-- The target of a cast. A place is a `transform` with no health, no kind and no states. -/
structure Target where
  isTransform : Bool
  isKind : Bool
  isBuilding : Bool
  invincible : Bool
  hp : ℤ
  distance : ℚ

/-- What else `canCast` reads of the entity. -/
structure Scene where
  target : Option Target
  targetTime : ℤ
  readySkillIdTime : ℤ
  noSpell : Bool
  hp : ℚ
  mp : ℚ

/-- `getDistance`, with `math.maxinteger` for no target. -/
def Scene.distance (scene : Scene) : ℚ := (scene.target.map Target.distance).getD (2 ^ 63 - 1)

def canCost (skilldata : SkillData) (hp mp : ℚ) : Bool :=
  let MpCost := skilldata.n32MpCostPercent / 100 * mp + skilldata.n32MpCost
  let HpCost := skilldata.n32HpCostPercent / 100 * hp + skilldata.n32HpCost
  !decide ((skilldata.n32MpCost ≠ 0 ∨ skilldata.n32MpCostPercent ≠ 0) ∧ MpCost > mp) &&
    !decide ((skilldata.n32HpCost ≠ 0 ∨ skilldata.n32HpCostPercent ≠ 0) ∧ HpCost > hp)

/-- The checks of `canCast` behind that of the cooldown. -/
def canCastScene (skilldata : SkillData) (scene : Scene) : ErrorCode :=
  if skilldata.n32SkillTargetType = 3 ∧ scene.target.all fun t =>
      t.isTransform || t.isKind || decide (t.hp ≤ 0) then .EC_Spell_NoTarget
  else if (skilldata.n32SkillTargetType = 4 ∨ skilldata.n32SkillTargetType = 5) ∧
      (scene.target.isNone ∨ scene.targetTime < scene.readySkillIdTime) then .EC_Spell_NoTarget
  else if skilldata.n32Range ≠ 0 ∧ scene.distance > skilldata.n32Range then
    .EC_Spell_TargetOutDistance
  else if skilldata.n32SkillType ≠ 0 ∧ scene.noSpell then .EC_Spell_Controled
  else if skilldata.n32SkillType ≠ 0 ∧ skilldata.n32SkillTargetType ≠ 6 ∧
      skilldata.n32SkillTargetType ≠ 0 ∧ scene.target.any Target.isBuilding
      then .EC_Spell_NoBuilding
  else if scene.target.any fun t => !t.isTransform && t.invincible then .EC_Spell_Controled
  else if scene.hp ≤ 0 then .EC_Dead
  else if canCost skilldata scene.hp scene.mp = false then .EC_Spell_MpLow
  else .EC_None

/-- The cast that runs: before or behind the cooldown. -/
inductive Phase
  | none
  | ready (id : ℤ)
  | cast
  deriving DecidableEq

structure State where
  cooldown : Cooldown
  phase : Phase
  casted : ℤ → Option (ℚ × ℚ)

def canCast (s : State) (id : ℤ) (scene : Scene) : ErrorCode :=
  if s.phase ≠ .none then .EC_Spell_SkillIsRunning
  else match w.skillRepository id with
    | none => .noSkill
    | some skilldata =>
        if s.cooldown.getCdTime skilldata.id > 0 ∧ s.cooldown.getChargeCount id ≤ 0 then
          .EC_Spell_SkillIsInCd
        else canCastScene skilldata scene

inductive Label
  | tick (dt : ℚ) (order : List ℤ) (skillTable : SkillTable)
  | cast (id : ℤ) (scene : Scene)
  /-- The cast passes `onReady`; an attack cools down for the rest of its times. -/
  | ready (time : ℚ) (skillTable : SkillTable)
  | finish

def step (s : State) : Label → Option State
  | .tick dt order skillTable =>
      if 0 ≤ dt ∧ order.Perm s.cooldown.keys then do
        let cooldown ← s.cooldown.update w skillTable dt order
        return { s with cooldown, casted := fun id => (s.casted id).map fun e => (e.1, e.2 + dt) }
      else none
  | .cast id scene =>
      if canCast w s id scene = .EC_None then some { s with phase := .ready id } else none
  | .ready time skillTable =>
      match s.phase with
      | .ready id => do
          let skilldata ← w.skillRepository id
          let cooldown ← s.cooldown.onReady w skillTable skilldata time
          return {
            cooldown
            phase := .cast
            casted := if s.cooldown.getChargeCount id ≤ 0 then
              Function.update s.casted id (cooldown.added id) else s.casted }
      | _ => none
  | .finish => if s.phase = .cast then some { s with phase := .none } else none

/-- The tables that an entity comes with. -/
structure Tables extends Cooldown where
  nodup : keys.Nodup
  mem_keys : ∀ id, id ∈ keys ↔ (coolDownTable id).isSome
  fresh : ∀ id, added id = none

def system (c : Tables) : Transition.System State Label where
  init := ⟨c.toCooldown, .none, fun _ => none⟩
  step := step w

end GameServer.Casting
