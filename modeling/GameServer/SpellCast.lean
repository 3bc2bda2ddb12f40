import GameServer.Cooldown

/-!
# Casts of skills and their effects

One spell object serves all casts of an entity. The effect of a cast is fired by a countdown inside
it or by a scheduled child; the flag `isSheule` says which. `point` is where an update stands when
something else may run: a child or a passive spell that has run, the costs (health may end), the
request to the client, the message before an effect. Casts have numbers, which are history, as is
what is known of each. Skills are those with `n32NeedCasting = 0`; times are rational.
-/

namespace GameServer.SpellCast

open Transition

structure Skill extends Casting.SkillData where
  n32TriggerTime : ℚ

/-- `skillTimes[1]` to `skillTimes[3]` and `skillTimes["trigger"]` -/
structure SkillTimes where
  ready : ℚ
  cast : ℚ
  ending : ℚ
  trigger : ℚ

inductive SpellStatus
  | None
  | Ready
  | Cast
  | End
  deriving DecidableEq

structure Spell where
  status : SpellStatus
  skilldata : Option Skill
  readyTime : ℚ
  castTime : ℚ
  endTime : ℚ
  triggerTime : ℚ
  isSheule : Bool
  /-- History: the number of the cast. -/
  cast : ℕ

structure SheduleSpell where
  lifetime : ℚ
  isDead : Bool
  /-- History: the number of the cast. -/
  cast : ℕ
  deriving DecidableEq

/-- History: what is known of a cast. -/
structure Cast where
  skilldata : Skill
  skillTimes : SkillTimes
  /-- `breakSpell` ran in `Ready`, for want of mana and health or for another reason. -/
  broken : Bool
  /-- What `costMpHp` took of mana and health. -/
  cost : Option (ℚ × ℚ)
  /-- How often `onTrigger` ran. -/
  fired : ℕ
  /-- The lengths of the updates since the cast, the last one first. -/
  ticks : List ℚ

inductive Point
  | idle
  | passives (dt : ℚ)
  | costed (dt : ℚ)
  | synced (dt : ℚ)
  | triggers
  deriving DecidableEq

structure State where
  spell : Spell
  sheduleSpells : List SheduleSpell
  point : Point
  casts : List Cast

/-- The time of the effect, counted from the cast. -/
def startTrigger (skilldata : Skill) (skillTimes : SkillTimes) : ℚ :=
  if skilldata.n32TriggerTime * 1000 = 0 then skillTimes.trigger
  else skilldata.n32TriggerTime * 1000

/-- The time of the effect, counted from the end of `Ready` where it is positive. -/
def delay (skilldata : Skill) (skillTimes : SkillTimes) : ℚ :=
  if startTrigger skilldata skillTimes > 0 then startTrigger skilldata skillTimes - skillTimes.ready
  else startTrigger skilldata skillTimes

def costMpHp (skilldata : Skill) (hp mp : ℚ) : ℚ × ℚ :=
  (skilldata.n32MpCostPercent / 100 * mp + skilldata.n32MpCost,
    skilldata.n32HpCostPercent / 100 * hp + skilldata.n32HpCost)

namespace Spell

def init (self : Spell) (skilldata : Skill) (skillTimes : SkillTimes) : Spell :=
  { self with
    skilldata
    readyTime := skillTimes.ready
    castTime := skillTimes.cast
    endTime := skillTimes.ending
    triggerTime := delay skilldata skillTimes
    isSheule := startTrigger skilldata skillTimes > 0 || self.isSheule }

def clear (self : Spell) : Spell :=
  { self with triggerTime := 0, status := .None, readyTime := 0, castTime := 0, endTime := 0 }

def onCast (self : Spell) (dt : ℚ) : Spell :=
  let self := { self with castTime := self.castTime - dt }
  if self.castTime < 0 then { self with status := .End } else self

/-- `switched` says that the entity has another target by now. -/
def onEnd (self : Spell) (dt : ℚ) (switched : Bool) : Spell :=
  let self := { self with endTime := if switched then -1 else self.endTime - dt }
  if self.endTime < 0 then { self with status := .None } else self

end Spell

namespace SheduleSpell

def fires (self : SheduleSpell) (dt : ℚ) : Bool := self.lifetime - dt < 0 && !self.isDead

def update (self : SheduleSpell) (dt : ℚ) : SheduleSpell :=
  { self with lifetime := self.lifetime - dt, isDead := self.isDead || self.fires dt }

end SheduleSpell

namespace State

/-- What is known of the cast that the spell object holds. -/
def record (s : State) (f : Cast → Cast) : State :=
  { s with casts := s.casts.modify s.spell.cast f }

/-- `canCast` lets no cast begin while one runs. -/
def castSkill (s : State) (skilldata : Skill) (skillTimes : SkillTimes) : State :=
  { s with
    spell := { s.spell.init skilldata skillTimes with status := .Ready, cast := s.casts.length }
    casts := s.casts ++ [⟨skilldata, skillTimes, false, none, 0, []⟩] }

def breakSpell (s : State) : State :=
  let s := if s.spell.status = .Ready then s.record fun c => { c with broken := true } else s
  { s with spell := s.spell.clear }

/-- What runs behind a child, or in its effect, changes no child: the children make one step. -/
def updatesheduleSpell (s : State) (dt : ℚ) : State :=
  { s with
    sheduleSpells := (s.sheduleSpells.filter fun ss => !ss.isDead).map fun ss => ss.update dt
    casts := s.casts.mapIdx fun k c => { c with
      ticks := dt :: c.ticks
      fired := c.fired + s.sheduleSpells.countP fun ss => ss.fires dt && ss.cast == k } }

/-- `advanceEffect`, up to the message before the effect. -/
def advanceEffect (s : State) (dt : ℚ) : State :=
  if s.spell.triggerTime ≥ 0 then
    let s := { s with spell := { s.spell with triggerTime := s.spell.triggerTime - dt } }
    if s.spell.triggerTime < 0 ∧ s.spell.isSheule ≠ true then { s with point := .triggers }
    else { s with point := .idle }
  else { s with point := .idle }

/-- `onReady`, up to the costs, or with `advanceEffect` where there are none. -/
def onReady (s : State) (dt hp mp : ℚ) : Option State :=
  let s := { s with spell := { s.spell with readyTime := s.spell.readyTime - dt } }
  if s.spell.readyTime < 0 then
    s.spell.skilldata.map fun skilldata =>
      if Casting.canCost skilldata.toSkillData hp mp = false then s.breakSpell.advanceEffect dt
      else
        { s.record fun c => { c with cost := some (costMpHp skilldata hp mp) } with
          point := .costed dt }
  else some (s.advanceEffect dt)

/-- `onReady` behind the costs, up to the request to the client. -/
def schedule (s : State) (dt : ℚ) : State :=
  { s with
    sheduleSpells :=
      if s.spell.isSheule then s.sheduleSpells ++ [⟨s.spell.triggerTime, false, s.spell.cast⟩]
      else s.sheduleSpells
    point := .synced dt }

end State

inductive Label
  | castSkill (skilldata : Skill) (skillTimes : SkillTimes)
  | breakSpell
  | update (dt : ℚ)
  /-- The update goes on, with the health and the mana that the entity has by then. -/
  | resume (hp mp : ℚ) (switched : Bool)

def step (s : State) : Label → Option State
  | .castSkill skilldata skillTimes =>
      if s.point = .idle ∧ s.spell.status = .None then some (s.castSkill skilldata skillTimes)
      else none
  | .breakSpell => some s.breakSpell
  | .update dt =>
      if s.point = .idle ∧ 0 < dt then some { s.updatesheduleSpell dt with point := .passives dt }
      else none
  | .resume hp mp switched =>
      match s.point with
      | .idle => none
      | .passives dt =>
          match s.spell.status with
          | .None => some { s with point := .idle }
          | .Ready => s.onReady dt hp mp
          | .Cast => some ({ s with spell := s.spell.onCast dt }.advanceEffect dt)
          | .End => some ({ s with spell := s.spell.onEnd dt switched }.advanceEffect dt)
      | .costed dt => some (s.schedule dt)
      | .synced dt =>
          some ({ s with spell := { s.spell with status := .Cast } }.advanceEffect dt)
      | .triggers =>
          some { s.record fun c => { c with fired := c.fired + 1 } with point := .idle }

def system : System State Label where
  init := ⟨⟨.None, none, 0, 0, 0, -1, false, 0⟩, [], .idle, []⟩
  step := step

end GameServer.SpellCast
